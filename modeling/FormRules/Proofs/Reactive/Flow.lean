import FormRules.Proofs.Keeps
import FormRules.Proofs.Reactive.Sound

/-!
# Rules for computations on networks

`Ensures Q x w`: what `x` comes to on the network `w`, and the network that it leaves, satisfy `Q`. There is one
rule for each way to build a computation.
-/

namespace FormRules

namespace Network

/-- The network with a signal written. -/
def put (w : Network) (name : String) (n : Signal) : Network := { w with signals := Table.put w.signals name n }

/-- The network with a signal changed, if it exists. -/
def change (w : Network) (name : String) (g : Signal → Signal) : Network :=
  match w.get name with
  | some n => w.put name (g n)
  | none => w

variable {w : Network} {name s : String} {n m : Signal} {g : Signal → Signal}

theorem get_put_self : (w.put name n).get name = some n := Table.get?_put_self

theorem get_put_of_ne (h : s ≠ name) : (w.put name n).get s = w.get s := Table.get?_put_of_ne h

theorem get_change_self (hn : w.get name = some n) : (w.change name g).get name = some (g n) := by
  rw [change, hn]
  exact get_put_self

/-- Writing a signal that exists keeps the network, if it keeps the computation. -/
theorem like_put (hn : w.get name = some n) (hc : m.derived.map (·.compute) = n.derived.map (·.compute)) :
    Like w (w.put name m) where
  names := Table.map_fst_put (by rw [Table.has, show Table.get? w.signals name = some n from hn]; rfl)
  computation s := by
    by_cases hs : s = name
    · rw [computation?, computation?, hs, get_put_self, hn, Option.bind_some, Option.bind_some, hc]
    · rw [computation?, computation?, get_put_of_ne hs]
  arrange := rfl

end Network

namespace Flow
open Network
variable {α β γ : Type} {P : α → Network → Prop} {Q Q' : β → Network → Prop} {E E' : Fault → Network → Prop}
  {x : Flow α} {y : Flow β} {k : α → Flow β} {w : Network} {name : String} {n : Signal}

/-- From a network, a computation comes to what satisfies `Q`, or to a fault that satisfies `E`, each together with
the network that it leaves. -/
def Ensures (Q : β → Network → Prop) (E : Fault → Network → Prop) (y : Flow β) (w : Network) : Prop :=
  match y.run.run w with
  | (.ok b, w') => Q b w'
  | (.error e, w') => E e w'

theorem run_bind (x : Flow α) (k : α → Flow β) (w : Network) : (x >>= k).run.run w =
    match x.run.run w with
    | (.ok a, w') => (k a).run.run w'
    | (.error e, w') => (.error e, w') := by
  rw [run_bind_state]
  cases x.run.run w with
  | mk r w' => cases r <;> rfl

theorem run_attempt (x : Flow α) (w : Network) :
    (attempt x).run.run w = (.ok (x.run.run w).1, (x.run.run w).2) := run_outcome_state x w

namespace Ensures

theorem mono (h : Ensures Q E y w) (hQ : ∀ b w', Q b w' → Q' b w') (hE : ∀ e w', E e w' → E' e w') :
    Ensures Q' E' y w := by
  unfold Ensures at *
  split at h
  · exact hQ _ _ h
  · exact hE _ _ h

theorem and (h : Ensures Q E y w) (h' : Ensures Q' E' y w) :
    Ensures (fun b w' => Q b w' ∧ Q' b w') E y w := by
  unfold Ensures at *
  split at h
  · next hrun =>
    rw [hrun] at h'
    exact ⟨h, h'⟩
  · exact h

theorem imp {p : Prop} (h : p → Ensures Q E y w) : Ensures (fun b w' => p → Q b w') (fun _ _ => True) y w := by
  unfold Ensures at *
  split
  · next hrun =>
    intro hp
    have hQ := h hp
    rwa [hrun] at hQ
  · trivial

theorem of_ok {b : β} {w' : Network} (h : Ensures Q E y w) (hrun : y.run.run w = (.ok b, w')) : Q b w' := by
  rw [Ensures, hrun] at h
  exact h

theorem cases (h : Ensures Q E y w) : (∃ b w', y.run.run w = (.ok b, w') ∧ Q b w') ∨
    ∃ e w', y.run.run w = (.error e, w') ∧ E e w' := by
  unfold Ensures at h
  split at h
  · next b w' hrun => exact .inl ⟨b, w', hrun, h⟩
  · next e w' hrun => exact .inr ⟨e, w', hrun, h⟩

theorem pure {b : β} (h : Q b w) : Ensures Q E (Pure.pure b) w := h

theorem bind (hx : Ensures P E x w) (hk : ∀ a w', P a w' → Ensures Q E (k a) w') : Ensures Q E (x >>= k) w := by
  unfold Ensures at hx
  rw [Ensures, run_bind]
  split at hx
  · exact hk _ _ hx
  · exact hx

theorem bind_of {a : α} {w' : Network} (hx : x.run.run w = (.ok a, w')) (hk : Ensures Q E (k a) w') :
    Ensures Q E (x >>= k) w := by
  rw [Ensures, run_bind, hx]
  exact hk

theorem of_run {b : β} {w' : Network} (hy : y.run.run w = (.ok b, w')) (h : Q b w') : Ensures Q E y w := by
  rw [Ensures, hy]
  exact h

theorem attempt {P : Outcome α → Network → Prop}
    (hx : Ensures (fun a w' => P (.ok a) w') (fun e w' => P (.error e) w') x w) : Ensures P E (Flow.attempt x) w := by
  unfold Ensures at hx
  rw [Ensures, run_attempt]
  split at hx <;> next hrun => rwa [hrun]

/-- A loop, by what holds with a rest that is still to be done. -/
theorem forIn {I : List γ → Network → Prop} {l : List γ} {body : γ → PUnit → Flow (ForInStep PUnit)} (h : I l w)
    (hbody : ∀ c l w, I (c :: l) w → Ensures (fun next w' => next = .yield ⟨⟩ ∧ I l w') E (body c ⟨⟩) w) :
    Ensures (fun _ w' => I [] w') E (ForIn.forIn l ⟨⟩ body) w := by
  induction l generalizing w with
  | nil => exact h
  | cons c l ih =>
    rw [List.forIn_cons]
    refine bind (hbody c l w h) ?_
    rintro _ w' ⟨rfl, hw'⟩
    exact ih hw'

end Ensures

theorem run_signal? : (signal? name).run.run w = (.ok (w.get name), w) := rfl

theorem run_signal (h : w.get name = some n) : (signal name).run.run w = (.ok n, w) := by
  rw [signal, run_bind, run_signal?, h]
  rfl

theorem run_put : (put name n).run.run w = (.ok (), w.put name n) := rfl

theorem run_change {g : Signal → Signal} : (change name g).run.run w = (.ok (), w.change name g) := by
  rw [change, run_bind, run_signal?, Network.change]
  cases w.get name <;> rfl

theorem run_size : size.run.run w = (.ok w.signals.length, w) := rfl

end Flow
end FormRules
