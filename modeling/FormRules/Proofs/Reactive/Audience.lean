import FormRules.Proofs.Reactive.Flow
import Mathlib.Order.Defs.Unbundled

/-!
# Who is told

Whatever is done to a network, signals keep their audience, and who has been told something stays told. Computing
tells nobody.
-/

namespace FormRules

/-- Who is told of a change of the signal, and which comparison tells one. -/
def Signal.audience (n : Signal) : List Nat × Bool := (n.subscribers, n.strict)

namespace Network
variable {w w' w'' : Network} {name s : String} {n m : Signal} {g : Signal → Signal}

/-- All signals have the same audience. -/
def SameAudience (w w' : Network) : Prop := ∀ s, (w'.get s).map Signal.audience = (w.get s).map Signal.audience

/-- Nobody has been told anything. -/
structure Quiet (w w' : Network) : Prop where
  audience : SameAudience w w'
  told : w'.told = w.told

/-- Some may have been told something. -/
structure Grown (w w' : Network) : Prop where
  audience : SameAudience w w'
  told : ∃ news, w'.told = w.told ++ news

theorem SameAudience.trans (h : SameAudience w w') (h' : SameAudience w' w'') : SameAudience w w'' :=
  fun s => (h' s).trans (h s)

instance : IsPreorder Network Quiet where
  refl _ := ⟨fun _ => rfl, rfl⟩
  trans _ _ _ h h' := ⟨h.audience.trans h'.audience, h'.told.trans h.told⟩

instance : IsPreorder Network Grown where
  refl _ := ⟨fun _ => rfl, [], (List.append_nil _).symm⟩
  trans _ _ _ h h' := by
    obtain ⟨news, hnews⟩ := h.told
    obtain ⟨news', hnews'⟩ := h'.told
    exact ⟨h.audience.trans h'.audience, news ++ news', by rw [hnews', hnews, List.append_assoc]⟩

theorem Quiet.grown (h : Quiet w w') : Grown w w' := ⟨h.audience, [], by rw [h.told, List.append_nil]⟩

theorem SameAudience.of_get (h : SameAudience w w') (hn : w.get s = some n) (hm : w'.get s = some m) :
    m.audience = n.audience := by
  have hs := h s
  rw [hn, hm] at hs
  exact Option.some.inj hs

theorem quiet_put (hn : w.get name = some n) (hm : m.audience = n.audience) : Quiet w (w.put name m) := by
  refine ⟨fun s => ?_, rfl⟩
  by_cases hs : s = name
  · rw [hs, get_put_self, hn, Option.map_some, Option.map_some, hm]
  · rw [get_put_of_ne hs]

theorem quiet_change (hg : ∀ n, (g n).audience = n.audience) : Quiet w (w.change name g) := by
  unfold change
  cases hn : w.get name with
  | none => exact refl_of Quiet w
  | some n => exact quiet_put hn (hg n)

end Network

namespace Flow
open Network
variable {α β γ : Type} {R : Network → Network → Prop}

/-- Whatever a computation comes to, it leaves a network that is related to the one before. -/
def Leaves (R : Network → Network → Prop) (y : Flow β) : Prop := ∀ w, R w (y.run.run w).2

theorem Leaves.ensures {y : Flow β} {w : Network} (h : Leaves R y) :
    Ensures (fun _ w' => R w w') (fun _ _ => True) y w := by
  have hw := h w
  unfold Ensures
  split
  · next hrun => rwa [hrun] at hw
  · trivial

namespace Leaves

theorem mono {R' : Network → Network → Prop} {y : Flow β} (h : Leaves R y) (hR : ∀ w w', R w w' → R' w w') :
    Leaves R' y :=
  fun w => hR _ _ (h w)

theorem attempt {x : Flow α} (hx : Leaves R x) : Leaves R (Flow.attempt x) := by
  intro w
  rw [run_attempt]
  exact hx w

variable [IsPreorder Network R] {x : Flow α} {k : α → Flow β}

theorem pure {b : β} : Leaves R (Pure.pure b) := fun w => refl_of R w

theorem throw {e : Fault} : Leaves R (MonadExcept.throw e : Flow β) := fun w => refl_of R w

theorem bind (hx : Leaves R x) (hk : ∀ a, Leaves R (k a)) : Leaves R (x >>= k) := by
  intro w
  rw [run_bind]
  have hw := hx w
  split
  · next a w' hrun =>
    rw [hrun] at hw
    exact trans_of R hw (hk a w')
  · next e w' hrun => rwa [hrun] at hw

theorem map {f : α → β} (hx : Leaves R x) : Leaves R (f <$> x) := by
  rw [map_eq_pure_bind]
  exact hx.bind fun _ => pure

theorem forIn {l : List γ} {body : γ → PUnit → Flow (ForInStep PUnit)} (h : ∀ c, Leaves R (body c ⟨⟩)) :
    Leaves R (ForIn.forIn l ⟨⟩ body) := by
  induction l with
  | nil => exact pure
  | cons c l ih =>
    rw [List.forIn_cons]
    refine (h c).bind fun next => ?_
    cases next with
    | done => exact pure
    | yield => exact ih

theorem signal? {name : String} : Leaves R (Flow.signal? name) := fun w => refl_of R w

theorem signal {name : String} : Leaves R (Flow.signal name) := by
  refine signal?.bind fun n => ?_
  cases n with
  | none => exact throw
  | some n => exact pure

theorem size : Leaves R Flow.size := fun w => refl_of R w

end Leaves

/-! ## Computing tells nobody -/

theorem change_quiet {name : String} {g : Signal → Signal} (hg : ∀ n, (g n).audience = n.audience) :
    Leaves Quiet (change name g) := by
  intro w
  rw [run_change]
  exact quiet_change hg

theorem rewire_quiet (name : String) (d : Derived) (sources : List String) : Leaves Quiet (rewire name d sources) := by
  unfold rewire
  refine Leaves.bind (Leaves.forIn fun s => ?_) fun _ => Leaves.bind (Leaves.forIn fun s => ?_) fun _ => ?_
  · split
    · refine Leaves.bind ?_ fun _ => Leaves.pure
      exact change_quiet fun _ => rfl
    · exact Leaves.pure
  · split
    · refine Leaves.bind ?_ fun _ => Leaves.pure
      exact change_quiet fun _ => rfl
    · exact Leaves.pure
  · exact change_quiet fun _ => rfl

theorem follow_leaves [IsPreorder Network R] {read : String → Flow (Option Value)} (h : ∀ s, Leaves R (read s))
    (c : Reading (Outcome Value)) (acc : List String) : Leaves R (follow read c acc) := by
  induction c generalizing acc with
  | done o => exact Leaves.pure
  | read s tracked next ih =>
    unfold follow
    refine Leaves.signal?.bind fun n => Leaves.bind (h s).attempt fun o => ?_
    cases o with
    | ok v => exact ih v _
    | error e => exact Leaves.pure

theorem readWith_leaves [IsPreorder Network R] {compute : String → Flow Value} (h : ∀ s, Leaves R (compute s))
    (name : String) : Leaves R (readWith compute name) := by
  refine Leaves.signal?.bind fun n => ?_
  cases n with
  | none => exact Leaves.pure
  | some n =>
    cases hd : n.derived with
    | none =>
      simp only [hd]
      exact Leaves.pure
    | some d =>
      simp only [hd]
      split
      · exact (h name).map
      · exact Leaves.pure

theorem compute_quiet (fuel : Nat) (name : String) : Leaves Quiet (compute fuel name) := by
  induction fuel generalizing name with
  | zero => exact Leaves.pure
  | succ fuel ih =>
    refine Leaves.signal.bind fun n => ?_
    cases n.derived with
    | none => exact Leaves.pure
    | some d =>
      refine Leaves.bind (follow_leaves (readWith_leaves ih) d.compute []) fun r => ?_
      refine (rewire_quiet name d r.2).bind fun _ => Leaves.bind (fun w => refl_of Quiet w) fun v => ?_
      refine Leaves.bind ?_ fun _ => Leaves.pure
      exact change_quiet fun _ => rfl

theorem recompute_quiet (name : String) : Leaves Quiet (recompute name) := Leaves.size.bind fun k => compute_quiet k name

/-! ## Telling -/

theorem tell_grown (n : Signal) (v : Value) : Leaves Grown (tell n v) := by
  refine Leaves.bind (Leaves.forIn fun s => ?_) fun _ => Leaves.pure
  have hnote : Leaves Grown (modify fun w => { w with told := w.told ++ [(s, v)] }) :=
    fun w => ⟨fun _ => rfl, [(s, v)], rfl⟩
  refine hnote.bind fun _ => Leaves.bind (fun w => refl_of Grown w) fun w => ?_
  have hread (t : String) : Leaves Grown (readWith recompute t) :=
    (readWith_leaves recompute_quiet t).mono fun _ _ h => h.grown
  exact (follow_leaves hread (w.hear s v) []).bind fun _ => Leaves.pure

/-! ## Marking -/

/-- A stale signal that has subscribers is computed anew, and they are told. -/
def renew (name : String) : Flow Unit := do
  let n ← signal name
  if n.subscribers.isEmpty then return
  let v ← recompute name
  if !n.keeps v then tell (← signal name) v

theorem renew_grown (name : String) : Leaves Grown (renew name) := by
  refine Leaves.signal.bind fun n => ?_
  split
  · exact Leaves.pure
  · refine ((recompute_quiet name).mono fun _ _ h => h.grown).bind fun v => ?_
    split
    · exact Leaves.signal.bind fun n => tell_grown n v
    · exact Leaves.pure

theorem stale_or_fresh (w : Network) (name : String) :
    (∀ n d, w.get name = some n → n.derived = some d → d.stale = true) ∨
    ∃ n d, w.get name = some n ∧ n.derived = some d ∧ d.stale = false := by
  refine Classical.or_iff_not_imp_left.mpr fun h => ?_
  simp only [Classical.not_forall, Bool.not_eq_true] at h
  obtain ⟨n, d, hn, hd, hfresh⟩ := h
  exact ⟨n, d, hn, hd, hfresh⟩

/-- Nothing is done for what is no derived signal, or stale already. -/
theorem run_markStale_of_stale {w : Network} {fuel : Nat} {name : String}
    (h : ∀ n d, w.get name = some n → n.derived = some d → d.stale = true) :
    (markStale fuel name).run.run w = (.ok (), w) := by
  cases fuel with
  | zero => rfl
  | succ fuel =>
    unfold markStale
    rw [run_bind, run_signal?]
    cases hn : w.get name with
    | none => rfl
    | some n =>
      cases hd : n.derived with
      | none =>
        simp only [hd]
        rfl
      | some d =>
        simp only [hd, h n d hn hd]
        rfl

/-- A signal that is up to date is marked, then its observers are, and then it is computed anew if it has
subscribers. -/
theorem run_markStale {w : Network} {fuel : Nat} {name : String} {n : Signal} {d : Derived} (hn : w.get name = some n)
    (hd : n.derived = some d) (hfresh : d.stale = false) :
    (markStale (fuel + 1) name).run.run w =
      (do
        for o in ← inTurn n.observers do
          markStale fuel o
        renew name : Flow Unit).run.run (w.put name { n with derived := some { d with stale := true } }) := by
  rw [markStale, run_bind, run_signal?, hn]
  simp only [hd, hfresh, Bool.false_eq_true, if_false]
  rw [run_bind, run_put]
  rfl

theorem inTurn_quiet (observers : List String) : Leaves Quiet (inTurn observers) := fun _ => ⟨fun _ => rfl, rfl⟩

theorem markStale_grown (fuel : Nat) (name : String) : Leaves Grown (markStale fuel name) := by
  induction fuel generalizing name with
  | zero => exact Leaves.pure
  | succ fuel ih =>
    intro w
    rcases stale_or_fresh w name with h | ⟨n, d, hn, hd, hfresh⟩
    · rw [run_markStale_of_stale h]
      exact refl_of Grown w
    · rw [run_markStale hn hd hfresh]
      have hput : Quiet w (w.put name { n with derived := some { d with stale := true } }) := quiet_put hn rfl
      refine trans_of Grown hput.grown (Leaves.bind ?_ (fun _ => Leaves.bind (Leaves.forIn fun o => ?_) fun _ => ?_) _)
      · exact (inTurn_quiet n.observers).mono fun _ _ h => h.grown
      · exact (ih o).bind fun _ => Leaves.pure
      · exact renew_grown name

theorem write_grown (name : String) (v : Value) : Leaves Grown (write name v) := by
  intro w
  unfold write
  rw [run_bind]
  cases hn : w.get name with
  | none =>
    rw [show (signal name).run.run w = (.error (.breach .missingKey), w) by rw [signal, run_bind, run_signal?, hn]; rfl]
    exact refl_of Grown w
  | some n =>
    rw [run_signal hn]
    dsimp only
    split
    · exact refl_of Grown w
    split
    · exact refl_of Grown w
    have hput : Quiet w (w.put name { n with value := v, version := n.version + 1 }) := quiet_put hn rfl
    rw [run_bind, run_put]
    refine trans_of Grown hput.grown (Leaves.bind ?_ (fun _ => Leaves.bind (Leaves.forIn fun o => ?_) fun _ => ?_) _)
    · exact (inTurn_quiet n.observers).mono fun _ _ h => h.grown
    · exact Leaves.size.bind fun k => (markStale_grown k o).bind fun _ => Leaves.pure
    · exact Leaves.signal.bind fun n => (tell_grown n v).bind fun _ => Leaves.pure

end Flow
end FormRules
