import FormRules.Form.Run
import FormRules.Proofs.Keeps
import Mathlib.Logic.Relation

/-!
# Following a computation step by step

`Follows M x`: whatever form the computation `x` starts from, and whether it faults or not, it leaves
a form that is reached by steps of the relation `M`. A relation that contains what the single
operations do to a form is followed by everything that is composed of them.
-/

namespace FormRules.Live
open Relation
variable {α β : Type}

/-- The result of a computation on a form. -/
def result (x : Live α) (f : Form) : Outcome α := (x.run.run f).1

/-- The form after a computation, also if that faults. -/
def after (x : Live α) (f : Form) : Form := (x.run.run f).2

theorem run_bind (x : Live α) (k : α → Live β) (f : Form) : (x >>= k).run.run f =
    match result x f with
    | .ok a => (k a).run.run (after x f)
    | .error e => (.error e, after x f) := by
  rw [run_bind_state]
  unfold result after
  cases x.run.run f with
  | mk r g => cases r <;> rfl

theorem run_get_bind (k : Form → Live β) (f : Form) : (get >>= k).run.run f = (k f).run.run f := rfl

theorem run_tryCatch (x : Live α) (h : Fault → Live α) (f : Form) : (tryCatch x h).run.run f =
    match result x f with
    | .ok a => (.ok a, after x f)
    | .error e => (h e).run.run (after x f) := by
  rw [run_tryCatch_state]
  unfold result after
  cases x.run.run f with
  | mk r g => cases r <;> rfl

section
variable {x : Live α} {k : α → Live β} {f : Form} {a : α} {e : Fault}

theorem after_bind_ok (h : result x f = .ok a) : after (x >>= k) f = after (k a) (after x f) := by
  rw [after, run_bind, h]; rfl

theorem after_bind_error (h : result x f = .error e) : after (x >>= k) f = after x f := by
  rw [after, run_bind, h]

theorem result_bind_ok (h : result x f = .ok a) : result (x >>= k) f = result (k a) (after x f) := by
  rw [result, run_bind, h]; rfl

theorem result_bind_error (h : result x f = .error e) : result (x >>= k) f = .error e := by
  rw [result, run_bind, h]

/-- A sequence that gives a result has given one for its first part. -/
theorem of_result_bind {b : β} (h : result (x >>= k) f = .ok b) :
    ∃ a, result x f = .ok a ∧ result (k a) (after x f) = .ok b ∧
      after (x >>= k) f = after (k a) (after x f) := by
  cases hx : result x f with
  | ok a => exact ⟨a, rfl, by rw [← result_bind_ok hx, h], after_bind_ok hx⟩
  | error e => rw [result_bind_error hx] at h; cases h

theorem after_bind_eq (hk : ∀ a g, after (k a) g = g) : after (x >>= k) f = after x f := by
  cases hx : result x f with
  | ok a => rw [after_bind_ok hx, hk]
  | error e => exact after_bind_error hx

theorem after_attempt (x : Live α) (f : Form) : after (attempt x) f = after x f :=
  congrArg Prod.snd (run_outcome_state x f)

theorem result_attempt (x : Live α) (f : Form) : result (attempt x) f = .ok (result x f) :=
  congrArg Prod.fst (run_outcome_state x f)

end

/-! ## A single operation and what comes after it -/

section
variable (f : Form)

@[simp] theorem result_get_bind (k : Form → Live β) : result (get >>= k) f = result (k f) f := rfl

@[simp] theorem after_get_bind (k : Form → Live β) : after (get >>= k) f = after (k f) f := rfl

@[simp] theorem result_set_bind (g : Form) (k : PUnit → Live β) : result (set g >>= k) f = result (k ⟨⟩) g := rfl

@[simp] theorem after_set_bind (g : Form) (k : PUnit → Live β) : after (set g >>= k) f = after (k ⟨⟩) g := rfl

@[simp] theorem after_modify_bind (h : Form → Form) (k : PUnit → Live β) :
    after (modify h >>= k) f = after (k ⟨⟩) (h f) := rfl

theorem after_ofOutcome (o : Outcome α) : after (ofOutcome o) f = f := rfl

@[simp] theorem after_slot?_bind (s : SlotKey) (k : Option Slot → Live β) :
    after (slot? s >>= k) f = after (k (Table.get? f.slots s)) f := rfl

@[simp] theorem after_ofReporting_bind (x : Reporting α) (k : α → Live β) :
    after (ofReporting x >>= k) f =
      after (k (x.run f.journal).1) { f with journal := (x.run f.journal).2 } := rfl

end

/-! ## Computations that follow a relation -/

/-- From a form, the computation takes steps of the relation only. -/
def FollowsFrom (M : Form → Form → Prop) (f : Form) (x : Live α) : Prop := ReflTransGen M f (after x f)

/-- From every form, the computation takes steps of the relation only. -/
def Follows (M : Form → Form → Prop) (x : Live α) : Prop := ∀ f, FollowsFrom M f x

section
variable {M M' : Form → Form → Prop} {f : Form} {x : Live α} {k : α → Live β}

theorem FollowsFrom.of_eq (h : after x f = f) : FollowsFrom M f x := by
  rw [FollowsFrom, h]

theorem FollowsFrom.single (h : M f (after x f)) : FollowsFrom M f x := ReflTransGen.single h

theorem FollowsFrom.bind (hx : FollowsFrom M f x)
    (hk : ∀ a, result x f = .ok a → FollowsFrom M (after x f) (k a)) : FollowsFrom M f (x >>= k) := by
  unfold FollowsFrom
  cases h : result x f with
  | ok a => rw [after_bind_ok h]; exact hx.trans (hk a h)
  | error e => rw [after_bind_error h]; exact hx

theorem FollowsFrom.pure (a : α) : FollowsFrom M f (Pure.pure a : Live α) := .of_eq rfl

theorem FollowsFrom.map (hx : FollowsFrom M f x) (h : α → β) : FollowsFrom M f (h <$> x) := by
  rw [map_eq_pure_bind]; exact hx.bind fun _ _ => pure _

theorem FollowsFrom.get_bind {k : Form → Live β} (h : FollowsFrom M f (k f)) : FollowsFrom M f (get >>= k) := h

theorem FollowsFrom.mono (h : ∀ f g, M f g → M' f g) (hx : FollowsFrom M f x) : FollowsFrom M' f x :=
  Relation.ReflTransGen.mono h _ _ hx

/-- What every step keeps is kept by a computation of such steps. -/
theorem FollowsFrom.keeps {P : Form → Prop} (hx : FollowsFrom M f x) (hm : ∀ f g, M f g → P f → P g) (hf : P f) :
    P (after x f) := by
  unfold FollowsFrom at hx
  generalize after x f = g at hx
  induction hx with
  | refl => exact hf
  | tail _ h ih => exact hm _ _ h ih

namespace Follows

theorem mono (h : ∀ f g, M f g → M' f g) (hx : Follows M x) : Follows M' x := fun f => (hx f).mono h

theorem of_eq (h : ∀ f, after x f = f) : Follows M x := fun f => .of_eq (h f)

theorem pure (a : α) : Follows M (Pure.pure a : Live α) := of_eq fun _ => rfl

theorem throw (e : Fault) : Follows M (MonadExcept.throw e : Live α) := of_eq fun _ => rfl

theorem ofOutcome (o : Outcome α) : Follows M (Live.ofOutcome o) := of_eq fun _ => rfl

theorem bind (hx : Follows M x) (hk : ∀ a, Follows M (k a)) : Follows M (x >>= k) :=
  fun f => (hx f).bind fun a _ => hk a _

theorem map (hx : Follows M x) (h : α → β) : Follows M (h <$> x) := by
  rw [map_eq_pure_bind]; exact hx.bind fun _ => pure _

theorem get_bind {k : Form → Live β} (h : ∀ f, FollowsFrom M f (k f)) : Follows M (get >>= k) := h

theorem tryCatch {h : Fault → Live α} (hx : Follows M x) (hh : ∀ e, Follows M (h e)) :
    Follows M (MonadExcept.tryCatch x h) := by
  intro f
  rw [FollowsFrom, after, run_tryCatch]
  cases result x f with
  | ok a => exact hx f
  | error e => exact (hx f).trans (hh e _)

theorem attempt (hx : Follows M x) : Follows M (Live.attempt x) :=
  (hx.map _).tryCatch fun _ => pure _

theorem forM {l : List α} {h : α → Live Unit} (hh : ∀ a ∈ l, Follows M (h a)) : Follows M (l.forM h) := by
  induction l with
  | nil => exact pure ()
  | cons a l ih =>
    exact (hh a List.mem_cons_self).bind fun _ => ih fun b hb => hh b (List.mem_cons_of_mem _ hb)

theorem mapM {l : List α} {h : α → Live β} (hh : ∀ a, Follows M (h a)) : Follows M (l.mapM h) := by
  induction l with
  | nil => rw [List.mapM_nil]; exact pure []
  | cons a l ih =>
    rw [List.mapM_cons]
    exact (hh a).bind fun _ => ih.bind fun _ => pure _

theorem filterAuxM {l acc : List α} {h : α → Live Bool} (hh : ∀ a, Follows M (h a)) :
    Follows M (l.filterAuxM h acc) := by
  induction l generalizing acc with
  | nil => exact pure _
  | cons a l ih => exact (hh a).bind fun _ => ih

theorem filterM {l : List α} {h : α → Live Bool} (hh : ∀ a, Follows M (h a)) : Follows M (l.filterM h) :=
  (filterAuxM hh).bind fun _ => pure _

theorem forIn {l : List α} {b : β} {h : α → β → Live (ForInStep β)} (hh : ∀ a ∈ l, ∀ b, Follows M (h a b)) :
    Follows M (ForIn.forIn l b h) := by
  induction l generalizing b with
  | nil => exact pure b
  | cons a l ih =>
    rw [List.forIn_cons]
    refine (hh a List.mem_cons_self b).bind fun s => ?_
    cases s with
    | done b => exact pure b
    | yield b => exact ih fun c hc => hh c (List.mem_cons_of_mem _ hc)

/-! Computations that may fault apart from the form's own faults. -/

theorem run_bind {x : ExceptT Fault Live α} {k : α → ExceptT Fault Live β} (hx : Follows M x.run)
    (hk : ∀ a, Follows M (k a).run) : Follows M (x >>= k).run := by
  rw [ExceptT.run_bind]
  refine hx.bind fun o => ?_
  cases o with
  | ok a => exact hk a
  | error e => exact pure _

theorem run_pure (a : α) : Follows M (Pure.pure a : ExceptT Fault Live α).run := pure _

theorem run_lift (hx : Follows M x) : Follows M (liftM x : ExceptT Fault Live α).run := hx.map Except.ok

end Follows
end
end FormRules.Live
