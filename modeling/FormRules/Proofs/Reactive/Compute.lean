import FormRules.Proofs.Reactive.Wiring

/-!
# Computing signals anew

In a network whose computations read only what is of lower rank, computing a signal keeps the network sound, and
gives what the computation comes to on the values that are then held. What is pending stays so: a signal may well
be computed from others that have yet to be told of a change, since it will then be told in turn.
-/

namespace FormRules

namespace Network
variable {w₀ w w' w'' : Network} {pending : String → Prop} {rank : String → Nat} {r r' : Nat} {name s t : String}
  {n m : Signal} {d : Derived} {fin acc : List String} {tracked : Bool}

/-- A network of computations that only read, each signal from ones of lower rank. -/
structure Ranked (w : Network) (rank : String → Nat) : Prop where
  tracked : ∀ a r, w.computation? a = some r → r.Tracked
  lt : ∀ a b, w.MayRead a b → rank b < rank a
  bound : ∀ a, (w.get a).isSome = true → rank a < w.signals.length

/-- What computing signals of rank below `r` does to a sound network. -/
structure Refreshed (w₀ : Network) (pending : String → Prop) (rank : String → Nat) (r : Nat) (w w' : Network) :
    Prop where
  sound : Sound w₀ w' pending
  kept : Kept w w'
  above : ∀ a n d, w.get a = some n → n.derived = some d → r ≤ rank a → ∃ n', w'.get a = some n' ∧ n'.derived = some d

/-- What reading a signal gives, when the network is left in the given state. -/
def Finds (w : Network) (s : String) : Outcome (Option Value) → Prop
  | .ok none => w.get s = none
  | .ok (some v) => ∃ m, w.get s = some m ∧ m.isStale = false ∧ m.value = v
  | .error e => ∃ m d, w.get s = some m ∧ m.derived = some d ∧ d.stale = true ∧ Fails w e d.compute

/-- The sources of a computation that have been read when it has read one more signal. -/
def withSource (w : Network) (acc : List String) (s : String) (tracked : Bool) : List String :=
  if (w.get s).isSome && tracked && !acc.contains s then acc ++ [s] else acc

namespace Refreshed

theorem refl (h : Sound w₀ w pending) : Refreshed w₀ pending rank r w w :=
  ⟨h, .refl w, fun _ n _ hn hd _ => ⟨n, hn, hd⟩⟩

theorem mono (h : Refreshed w₀ pending rank r w w') (hr : r ≤ r') : Refreshed w₀ pending rank r' w w' :=
  ⟨h.sound, h.kept, fun a n d hn hd ha => h.above a n d hn hd (Nat.le_trans hr ha)⟩

theorem trans (h : Refreshed w₀ pending rank r w w') (h' : Refreshed w₀ pending rank r w' w'') :
    Refreshed w₀ pending rank r w w'' := by
  refine ⟨h'.sound, h.kept.trans h'.kept, fun a n d hn hd ha => ?_⟩
  obtain ⟨n', hn', hd'⟩ := h.above a n d hn hd ha
  exact h'.above a n' d hn' hd' ha

end Refreshed

/-- Wiring a signal to what its computation has read, and giving it the value, is computing it. -/
theorem Sound.refreshed (h : Sound w₀ w pending) (hw : Rewired name fin w w') (hn : w.get name = some n)
    (hobserved : ∀ s ∈ fin, ∃ m, w'.get s = some m ∧ name ∈ m.observers) (hread : ∀ s ∈ fin, w₀.MayRead name s)
    (hm : w'.get name = some m) (hd : m.derived = some d) (hsources : d.sources = fin)
    (hkept : n.isStale = false → m.isStale = false ∧ m.value = n.value)
    (hsettled : d.stale = false → ¬ pending name → Settled w fin m.value d.compute) :
    Refreshed w₀ pending rank (rank name + 1) w w' := by
  have hkept : Kept w w' := hw.kept fun k hk hf => by
    cases hn.symm.trans hk
    exact ⟨m, hm, hkept hf⟩
  refine ⟨h.rewired hw hkept hobserved hread hm hd hsources hsettled, hkept, fun a k e hk he ha => ?_⟩
  obtain ⟨k', hk', hr⟩ := hw.signals a k hk
  exact ⟨k', hk', (hr.derived fun hname => by rw [hname] at ha; exact Nat.not_succ_le_self _ ha).trans he⟩

/-! ## Sources -/

theorem subset_withSource : acc ⊆ w.withSource acc s tracked := by
  unfold withSource
  split
  · exact List.subset_append_left acc [s]
  · exact List.Subset.refl acc

theorem of_mem_withSource (ht : t ∈ w.withSource acc s tracked) : t ∈ acc ∨ t = s ∧ (w.get s).isSome = true := by
  unfold withSource at ht
  split at ht
  · next hnew =>
    rw [Bool.and_eq_true, Bool.and_eq_true] at hnew
    exact (List.mem_append.mp ht).imp id fun ht => ⟨List.mem_singleton.mp ht, hnew.1.1⟩
  · exact .inl ht

theorem mem_withSource (hs : (w.get s).isSome = true) : s ∈ w.withSource acc s true := by
  unfold withSource
  split
  · exact List.mem_append_right acc (List.mem_singleton_self s)
  · next hold => simpa [hs] using hold

end Network

namespace Flow
open Network
variable {w₀ w : Network} {pending : String → Prop} {rank : String → Nat} {r : Nat} {s : String} {acc : List String}
  {E : Fault → Network → Prop}

/-- Reading a signal, when the stale one is computed by `compute`. -/
theorem readWith_spec {compute : String → Flow Value} (h : Sound w₀ w pending)
    (hcompute : ∀ n d, w.get s = some n → n.derived = some d → d.stale = true →
      Ensures (fun v w' => Refreshed w₀ pending rank r w w' ∧ Finds w' s (.ok (some v)))
        (fun e w' => Refreshed w₀ pending rank r w w' ∧ Finds w' s (.error e)) (compute s) w) :
    Ensures (fun v w' => Refreshed w₀ pending rank r w w' ∧ Finds w' s (.ok v))
      (fun e w' => Refreshed w₀ pending rank r w w' ∧ Finds w' s (.error e)) (readWith compute s) w := by
  unfold readWith
  refine Ensures.bind_of run_signal? ?_
  cases hn : w.get s with
  | none => exact ⟨.refl h, hn⟩
  | some n =>
    cases hd : n.derived with
    | none =>
      simp only [hd]
      exact ⟨.refl h, n, hn, by rw [Signal.isStale, hd]; rfl, rfl⟩
    | some d =>
      simp only [hd]
      split
      · next hstale =>
        rw [map_eq_pure_bind]
        exact Ensures.bind (hcompute n d hn hd hstale) fun v w' h => h
      · next hfresh =>
        exact ⟨.refl h, n, hn, by rw [isStale_of_derived hd]; simpa using hfresh, rfl⟩

/-- Following a computation. -/
theorem follow_spec (rank : String → Nat) (r : Nat) {read : String → Flow (Option Value)}
    {c : Reading (Outcome Value)} (h : Sound w₀ w pending)
    (hread : ∀ s w, c.Reads s → Sound w₀ w pending →
      Ensures (fun v w' => Refreshed w₀ pending rank r w w' ∧ Finds w' s (.ok v))
        (fun e w' => Refreshed w₀ pending rank r w w' ∧ Finds w' s (.error e)) (read s) w) :
    Ensures (fun (out, fin) w' => Refreshed w₀ pending rank r w w' ∧ acc ⊆ fin ∧
      (∀ s ∈ fin, s ∈ acc ∨ c.Reads s ∧ (w₀.get s).isSome = true) ∧
      (c.Tracked → match out with
        | .ok v => Settled w' fin v c
        | .error e => Fails w' e c)) E (follow read c acc) w := by
  induction c generalizing acc w with
  | done o =>
    refine ⟨.refl h, List.Subset.refl acc, fun s hs => .inl hs, fun _ => ?_⟩
    cases o with
    | ok v => exact .done
    | error e => exact .done
  | read s tracked next ih =>
    have hnew {fin : List String} (hfin : ∀ t ∈ fin, t ∈ w.withSource acc s tracked ∨
        (∃ v, (next v).Reads t) ∧ (w₀.get t).isSome = true) :
        ∀ t ∈ fin, t ∈ acc ∨ (Reading.read s tracked next).Reads t ∧ (w₀.get t).isSome = true := fun t ht => by
      rcases hfin t ht with ht | ⟨⟨v, hv⟩, ht⟩
      · rcases of_mem_withSource ht with ht | ⟨rfl, ht⟩
        · exact .inl ht
        · exact .inr ⟨.here tracked next, by rw [← h.like.isSome]; exact ht⟩
      · exact .inr ⟨.there s tracked v hv, ht⟩
    unfold follow
    refine Ensures.bind_of run_signal? ?_
    refine Ensures.bind (Ensures.attempt (P := fun o w' => Refreshed w₀ pending rank r w w' ∧ Finds w' s o)
      (hread s w (.here tracked next) h)) ?_
    rintro o w₁ ⟨hw₁, hfinds⟩
    cases o with
    | error e =>
      refine ⟨hw₁, subset_withSource, hnew fun t ht => .inl ht, fun _ => ?_⟩
      obtain ⟨m, d, hm, hd, hstale, hfails⟩ := hfinds
      exact .source hm hd hstale hfails
    | ok v =>
      refine (ih v hw₁.sound fun t w' ht => hread t w' (.there s tracked v ht)).mono ?_ fun e w' h => h
      rintro ⟨out, fin⟩ w₂ ⟨hw₂, hacc, hfin, hout⟩
      refine ⟨hw₁.trans hw₂, List.Subset.trans subset_withSource hacc,
        hnew fun t ht => (hfin t ht).imp id (.imp (⟨v, ·⟩) id), ?_⟩
      rintro (_ | ⟨_, htracked⟩)
      have hresult := hout (htracked v)
      cases v with
      | none =>
        have hnone := (hw₁.sound.like.between hw₂.sound.like).get_none hfinds
        cases out with
        | ok u => exact .missing hnone hresult
        | error e => exact .missing hnone hresult
      | some v =>
        obtain ⟨m, hm, hfresh, rfl⟩ := hfinds
        obtain ⟨m', hm', hfresh', hvalue⟩ := hw₂.kept s m hm hfresh
        have hs : s ∈ fin := hacc (mem_withSource ((h.like.isSome s).trans (hw₁.sound.isSome hm)))
        cases out with
        | ok u => exact .found hm' hs hfresh' (hvalue ▸ hresult)
        | error e => exact .found hm' hfresh' (hvalue ▸ hresult)

/-- Computing a signal that is stale, or not pending. -/
theorem compute_spec (hr : w₀.Ranked rank) : ∀ fuel name w n d, Sound w₀ w pending → w.get name = some n →
    n.derived = some d → (d.stale = true ∨ ¬ pending name) → rank name < fuel →
    Ensures (fun v w' => Refreshed w₀ pending rank (rank name + 1) w w' ∧ Finds w' name (.ok (some v)))
      (fun e w' => Refreshed w₀ pending rank (rank name + 1) w w' ∧ Finds w' name (.error e)) (compute fuel name) w := by
  intro fuel
  induction fuel with
  | zero => exact fun _ _ _ _ _ _ _ _ hfuel => absurd hfuel (Nat.not_lt_zero _)
  | succ fuel ih =>
    intro name w n d h hn hd hcurrent hfuel
    have hc := h.computation hn hd
    have hreads : ∀ s, d.compute.Reads s → (w₀.get s).isSome = true → w₀.MayRead name s :=
      fun s hs hsome => ⟨hsome, d.compute, hc, hs⟩
    unfold compute
    refine Ensures.bind_of (run_signal hn) ?_
    simp only [hd]
    refine Ensures.bind (follow_spec rank (rank name) h fun s w' hs h' => readWith_spec h' fun m e hm he hstale => ?_) ?_
    · have hlt := hr.lt name s (hreads s hs (h'.isSome hm))
      exact (ih s w' m e h' hm he (.inl hstale) (by omega)).mono (fun _ _ hv => ⟨hv.1.mono hlt, hv.2⟩)
        fun _ _ hv => ⟨hv.1.mono hlt, hv.2⟩
    rintro ⟨out, fin⟩ w₁ ⟨hw₁, -, hfin, hout⟩
    replace hout := hout (hr.tracked name _ hc)
    have hread : ∀ s ∈ fin, w₀.MayRead name s := fun s hs =>
      have hs := (hfin s hs).resolve_left List.not_mem_nil
      hreads s hs.1 hs.2
    obtain ⟨n₁, hn₁, hd₁⟩ := hw₁.above name n d hn hd (Nat.le_refl _)
    have hsettled (hf : d.stale = false) : Settled w₁ d.sources n₁.value d.compute := by
      have hpending := hcurrent.resolve_left (by rw [hf]; exact Bool.false_ne_true)
      exact hw₁.sound.settled name n₁ d hn₁ hd₁ hf hpending
    refine Ensures.bind (rewire_spec hn₁ hd₁ (fun s hs => hw₁.sound.sources name n₁ d s hn₁ hd₁ hs)
      fun s hs => (hw₁.sound.like.isSome s).trans (hread s hs).1) ?_
    rintro _ w₂ ⟨hw₂, hobserved, m, hm, hmd⟩
    cases out with
    | error e =>
      have hstale : d.stale = true := by
        cases hf : d.stale with
        | true => rfl
        | false => exact absurd hout (hsettled hf).not_fails
      have hw : Refreshed w₀ pending rank (rank name + 1) w₁ w₂ := hw₁.sound.refreshed hw₂ hn₁ hobserved hread hm hmd rfl
        (fun hf => by rw [isStale_of_derived hd₁, hstale] at hf; cases hf) fun hf _ => by rw [hstale] at hf; cases hf
      exact ⟨(hw₁.mono (Nat.le_succ _)).trans hw, m, _, hm, hmd, hstale, hout.rewired hw₂ hw.kept hm hmd hstale⟩
    | ok v =>
      refine Ensures.bind_of (x := ofOutcome (.ok v)) rfl (Ensures.bind_of run_change ?_)
      have hchange : Rewired name fin w₂ (w₂.change name (·.settle v)) :=
        .change fun k hk => .own rfl (by rw [Signal.settle, Option.map_map]; rfl)
      have hm' : (w₂.change name (·.settle v)).get name = some (m.settle v) := get_change_self hm
      have hd' : (m.settle v).derived = some { d with stale := false, sources := fin, runs := d.runs + 1 } := by
        rw [Signal.settle, hmd]
        rfl
      have hfresh : (m.settle v).isStale = false := isStale_of_derived hd'
      have hw : Refreshed w₀ pending rank (rank name + 1) w₁ (w₂.change name (·.settle v)) :=
        hw₁.sound.refreshed (hw₂.trans hchange) hn₁ (fun s hs => hchange.observed hs (hobserved s hs)) hread hm' hd' rfl
          (fun hf => ⟨hfresh, hout.unique (hsettled (isStale_of_derived hd₁ ▸ hf))⟩) fun _ _ => hout
      exact ⟨(hw₁.mono (Nat.le_succ _)).trans hw, m.settle v, hm', hfresh, rfl⟩

end Flow
end FormRules
