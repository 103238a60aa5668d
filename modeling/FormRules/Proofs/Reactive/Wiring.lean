import FormRules.Proofs.Reactive.Flow

/-!
# Wiring

When a signal has been computed, it comes to depend on what its computation has read: it is taken from the
observers of its former sources, and added to those of the new ones. Nothing else changes, and the network stays
sound.
-/

namespace FormRules

namespace Network
variable {w₀ w w' w'' : Network} {pending : String → Prop} {name s : String} {m m' m'' : Signal} {d : Derived}
  {fin : List String}

/-- What a signal `s` looks like before and after `name` comes to depend on the signals of `fin`. -/
structure Rewires (name : String) (fin : List String) (s : String) (m m' : Signal) : Prop where
  value : s ≠ name → m'.value = m.value
  derived : s ≠ name → m'.derived = m.derived
  compute : m'.derived.map (·.compute) = m.derived.map (·.compute)
  observed : ∀ o ∈ m'.observers, o ∈ m.observers ∨ o = name ∧ s ∈ fin
  observes : ∀ o ∈ m.observers, o ≠ name ∨ s ∈ fin → o ∈ m'.observers

/-- Two states of one network, before and after `name` comes to depend on the signals of `fin`. -/
structure Rewired (name : String) (fin : List String) (w w' : Network) : Prop where
  names : w'.signals.map (·.1) = w.signals.map (·.1)
  arrange : w'.arrange = w.arrange
  signals : ∀ s m, w.get s = some m → ∃ m', w'.get s = some m' ∧ Rewires name fin s m m'

namespace Rewires

theorem refl (name : String) (fin : List String) (s : String) (m : Signal) : Rewires name fin s m m :=
  ⟨fun _ => rfl, fun _ => rfl, rfl, fun _ ho => .inl ho, fun _ ho _ => ho⟩

theorem trans (h : Rewires name fin s m m') (h' : Rewires name fin s m' m'') : Rewires name fin s m m'' where
  value hs := (h'.value hs).trans (h.value hs)
  derived hs := (h'.derived hs).trans (h.derived hs)
  compute := h'.compute.trans h.compute
  observed o ho := (h'.observed o ho).elim (h.observed o) .inr
  observes o ho hf := h'.observes o (h.observes o ho hf) hf

/-- A signal that is no source any more is not observed. -/
theorem erase (hs : s ∉ fin) : Rewires name fin s m { m with observers := m.observers.erase name } where
  value _ := rfl
  derived _ := rfl
  compute := rfl
  observed _ ho := .inl (List.mem_of_mem_erase ho)
  observes _ ho hf := (List.mem_erase_of_ne (hf.resolve_right hs)).mpr ho

/-- A signal that is a source is observed. -/
theorem append (hs : s ∈ fin) : Rewires name fin s m { m with observers := m.observers ++ [name] } where
  value _ := rfl
  derived _ := rfl
  compute := rfl
  observed _ ho := (List.mem_append.mp ho).imp id fun ho => ⟨List.mem_singleton.mp ho, hs⟩
  observes _ ho _ := List.mem_append_left _ ho

/-- The signal itself may change its value and how it is derived, but not its computation. -/
theorem own (ho : m'.observers = m.observers) (hc : m'.derived.map (·.compute) = m.derived.map (·.compute)) :
    Rewires name fin name m m' where
  value h := absurd rfl h
  derived h := absurd rfl h
  compute := hc
  observed _ h := .inl (ho ▸ h)
  observes _ h _ := ho ▸ h

end Rewires

namespace Rewired

theorem refl (name : String) (fin : List String) (w : Network) : Rewired name fin w w :=
  ⟨rfl, rfl, fun s m hm => ⟨m, hm, .refl name fin s m⟩⟩

theorem trans (h : Rewired name fin w w') (h' : Rewired name fin w' w'') : Rewired name fin w w'' := by
  refine ⟨h'.names.trans h.names, h'.arrange.trans h.arrange, fun s m hm => ?_⟩
  obtain ⟨m', hm', hr⟩ := h.signals s m hm
  obtain ⟨m'', hm'', hr'⟩ := h'.signals s m' hm'
  exact ⟨m'', hm'', hr.trans hr'⟩

theorem put (hm : w.get s = some m) (h : Rewires name fin s m m') : Rewired name fin w (w.put s m') := by
  refine ⟨(like_put hm h.compute).names, rfl, fun t n hn => ?_⟩
  by_cases ht : t = s
  · subst ht
    cases hm.symm.trans hn
    exact ⟨m', get_put_self, h⟩
  · exact ⟨n, (get_put_of_ne ht).trans hn, .refl name fin t n⟩

theorem change {g : Signal → Signal} (h : ∀ m, w.get s = some m → Rewires name fin s m (g m)) :
    Rewired name fin w (w.change s g) := by
  rw [Network.change]
  cases hm : w.get s with
  | none => exact .refl name fin w
  | some m => exact .put hm (h m hm)

theorem get_none (h : Rewired name fin w w') (hs : w.get s = none) : w'.get s = none := by
  have hiff : (w'.get s).isSome = true ↔ (w.get s).isSome = true := by rw [isSome_get_iff, isSome_get_iff, h.names]
  rw [hs] at hiff
  simpa using hiff

theorem like (h : Rewired name fin w w') : Like w w' := by
  refine ⟨h.names, fun s => ?_, h.arrange⟩
  cases hm : w.get s with
  | none => rw [computation?, computation?, hm, h.get_none hm]
  | some m =>
    obtain ⟨m', hm', hr⟩ := h.signals s m hm
    rw [computation?_of_get hm, computation?_of_get hm', hr.compute]

/-- All that was up to date still is, if the signal itself is. -/
theorem kept (h : Rewired name fin w w') (hown : ∀ n, w.get name = some n → n.isStale = false →
    ∃ m, w'.get name = some m ∧ m.isStale = false ∧ m.value = n.value) : Kept w w' := by
  intro s m hm hf
  by_cases hs : s = name
  · subst hs
    exact hown m hm hf
  · obtain ⟨m', hm', hr⟩ := h.signals s m hm
    exact ⟨m', hm', by rw [Signal.isStale, hr.derived hs]; exact hf, hr.value hs⟩

/-- A source is observed as soon as it has been. -/
theorem observed (h : Rewired name fin w w') (hs : s ∈ fin) (hm : ∃ m, w.get s = some m ∧ name ∈ m.observers) :
    ∃ m, w'.get s = some m ∧ name ∈ m.observers := by
  obtain ⟨m, hm, hname⟩ := hm
  obtain ⟨m', hm', hr⟩ := h.signals s m hm
  exact ⟨m', hm', hr.observes name hname (.inr hs)⟩

/-- What was there before a signal was wired anew, but for that signal. -/
theorem of_get (h : Rewired name fin w w') (hm : w'.get s = some m') :
    ∃ m, w.get s = some m ∧ Rewires name fin s m m' := by
  cases hs : w.get s with
  | none => cases (h.get_none hs).symm.trans hm
  | some m =>
    obtain ⟨m'', hm'', hr⟩ := h.signals s m hs
    cases hm.symm.trans hm''
    exact ⟨m, rfl, hr⟩

end Rewired

/-- A network stays sound when a signal is wired to what its computation has read. -/
theorem Sound.rewired (h : Sound w₀ w pending) (hw : Rewired name fin w w') (hkept : Kept w w')
    (hobserved : ∀ s ∈ fin, ∃ m, w'.get s = some m ∧ name ∈ m.observers) (hread : ∀ s ∈ fin, w₀.MayRead name s)
    (hm : w'.get name = some m) (hd : m.derived = some d) (hsources : d.sources = fin)
    (hsettled : d.stale = false → ¬ pending name → Settled w fin m.value d.compute) : Sound w₀ w' pending where
  like := h.like.trans hw.like
  observers s n o hn ho := by
    obtain ⟨n', hn', hr⟩ := hw.of_get hn
    rcases hr.observed o ho with ho | ⟨rfl, hs⟩
    · exact h.observers s n' o hn' ho
    · exact hread s hs
  sources a n e s hn he hs := by
    by_cases ha : a = name
    · subst ha
      cases hm.symm.trans hn
      cases hd.symm.trans he
      exact hobserved s (hsources ▸ hs)
    · obtain ⟨n', hn', hr⟩ := hw.of_get hn
      obtain ⟨k, hk, hobserves⟩ := h.sources a n' e s hn' (by rw [← hr.derived ha, he]) hs
      obtain ⟨k', hk', hr'⟩ := hw.signals s k hk
      exact ⟨k', hk', hr'.observes a hobserves (.inl ha)⟩
  settled a n e hn he hf hp := by
    by_cases ha : a = name
    · subst ha
      cases hm.symm.trans hn
      cases hd.symm.trans he
      exact hsources ▸ (hsettled hf hp).kept hw.like hkept
    · obtain ⟨n', hn', hr⟩ := hw.of_get hn
      rw [hr.value ha]
      exact (h.settled a n' e hn' (by rw [← hr.derived ha, he]) hf hp).kept hw.like hkept

/-- A fault stays one when a signal that is stale before and afterwards is wired anew. -/
theorem Fails.rewired {e : Fault} {c : Reading (Outcome Value)} (h : Fails w e c) (hw : Rewired name fin w w')
    (hkept : Kept w w') (hm : w'.get name = some m) (hd : m.derived = some d) (hstale : d.stale = true) :
    Fails w' e c := by
  refine h.congr hw.like hkept fun s k b hk hb hs => ?_
  obtain ⟨k', hk', hr⟩ := hw.signals s k hk
  by_cases hname : s = name
  · subst hname
    cases hm.symm.trans hk'
    have hc : d.compute = b.compute := by simpa [hd, hb] using hr.compute
    exact ⟨m, d, hm, hd, hstale, hc⟩
  · exact ⟨k', b, hk', (hr.derived hname).trans hb, hs, rfl⟩

end Network

namespace Flow
open Network
variable {w : Network} {name : String} {n : Signal} {d : Derived} {fin : List String} {E : Fault → Network → Prop}

theorem rewire_spec (hn : w.get name = some n) (hd : n.derived = some d)
    (hsources : ∀ s ∈ d.sources, ∃ m, w.get s = some m ∧ name ∈ m.observers) (hfin : ∀ s ∈ fin, (w.get s).isSome = true) :
    Ensures (fun _ w' => Rewired name fin w w' ∧ (∀ s ∈ fin, ∃ m, w'.get s = some m ∧ name ∈ m.observers) ∧
      ∃ m, w'.get name = some m ∧ m.derived = some { d with sources := fin, runs := d.runs + 1 }) E
      (rewire name d fin) w := by
  unfold rewire
  refine Ensures.bind (Ensures.forIn (I := fun _ w' => Rewired name fin w w') (.refl name fin w)
    fun s rest w' hw => ?_) fun _ w₁ hw₁ => ?_
  · split
    · next hs =>
      refine Ensures.bind_of run_change ⟨rfl, hw.trans (.change fun m _ => .erase ?_)⟩
      simpa using hs
    · exact ⟨rfl, hw⟩
  -- what is still to be observed is in the rest of the loop
  refine Ensures.bind (Ensures.forIn (I := fun rest w' => Rewired name fin w w' ∧ rest ⊆ fin ∧
    ∀ s ∈ fin, s ∈ rest ∨ ∃ m, w'.get s = some m ∧ name ∈ m.observers)
    ⟨hw₁, List.Subset.refl fin, fun s hs => .inl hs⟩ ?_) ?_
  · rintro s rest w' ⟨hw, hrest, hdone⟩
    obtain ⟨hs, hrest⟩ := List.cons_subset.mp hrest
    obtain ⟨m, hm⟩ := Option.isSome_iff_exists.mp (hfin s hs)
    obtain ⟨m', hm', hr⟩ := hw.signals s m hm
    -- the signals of `fin` but for `s` are seen to earlier or later
    have hothers {w''} (hstep : Rewired name fin w' w'') (hs : ∃ m, w''.get s = some m ∧ name ∈ m.observers) :
        ∀ t ∈ fin, t ∈ rest ∨ ∃ m, w''.get t = some m ∧ name ∈ m.observers := fun t ht => by
      rcases hdone t ht with ht' | hname
      · rcases List.mem_cons.mp ht' with rfl | ht'
        · exact .inr hs
        · exact .inl ht'
      · exact .inr (hstep.observed ht hname)
    split
    · have hstep : Rewired name fin w' (w'.change s fun n => { n with observers := n.observers ++ [name] }) :=
        .change fun _ _ => .append hs
      refine Ensures.bind_of run_change ⟨rfl, hw.trans hstep, hrest, hothers hstep ⟨_, get_change_self hm', ?_⟩⟩
      exact List.mem_append_right _ (List.mem_singleton_self name)
    · next hold =>
      obtain ⟨k, hk, hname⟩ := hsources s (by simpa using hold)
      cases hm.symm.trans hk
      exact ⟨rfl, hw, hrest, hothers (.refl name fin w') ⟨m', hm', hr.observes name hname (.inr hs)⟩⟩
  · rintro _ w₂ ⟨hw₂, -, hdone⟩
    obtain ⟨m, hm, hr⟩ := hw₂.signals name n hn
    have hown : Rewires name fin name m { m with derived := some { d with sources := fin, runs := d.runs + 1 } } :=
      .own rfl (by rw [hr.compute, hd]; rfl)
    have hlast : Rewired name fin w₂ (w₂.change name fun n =>
        { n with derived := some { d with sources := fin, runs := d.runs + 1 } }) :=
      .change fun k hk => by cases hm.symm.trans hk; exact hown
    refine Ensures.of_run run_change ⟨hw₂.trans hlast, fun s hs => ?_, _, get_change_self hm, rfl⟩
    exact hlast.observed hs ((hdone s hs).resolve_left List.not_mem_nil)

end Flow
end FormRules
