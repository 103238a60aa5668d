import FormRules.Proofs.Reactive.Audience
import FormRules.Proofs.Reactive.Compute

/-!
# Propagation of changes

A signal that has changed leaves a network sound but for its observers. Marking one stale makes it sound but for
the others, although signals with subscribers are computed anew in between, from sources that may still be pending.
-/

namespace FormRules

/-- Whether a computation never faults. -/
inductive Reading.Total : Reading (Outcome Value) → Prop
  | done (v : Value) : Total (.done (.ok v))
  | read (name : String) (tracked : Bool) {next : Option Value → Reading (Outcome Value)} (h : ∀ v, Total (next v)) :
    Total (.read name tracked next)

namespace Network
variable {w₀ w : Network} {pending : String → Prop} {rank : String → Nat} {name s : String} {n m : Signal} {d : Derived}

/-- Whether no computation ever faults. -/
def Faultless (w : Network) : Prop := ∀ a r, w.computation? a = some r → r.Total

/-- Whether observers are told in some order. -/
def Arranges (w : Network) : Prop := ∀ turn observers, (w.arrange turn observers).Perm observers

theorem Fails.not_total {e : Fault} {r : Reading (Outcome Value)} (h : Fails w e r) (hs : Sound w₀ w pending)
    (hf : w₀.Faultless) : ¬ r.Total := by
  intro ht
  induction h with
  | done => cases ht
  | missing _ _ ih =>
    cases ht with
    | read _ _ ht => exact ih (ht _)
  | found _ _ _ ih =>
    cases ht with
    | read _ _ ht => exact ih (ht _)
  | source hm hd _ _ ih => exact ih (hf _ _ (hs.computation hm hd))

/-- In a sound state reading faults only if a computation may. -/
theorem Finds.faulty {e : Fault} (h : Finds w s (.error e)) (hs : Sound w₀ w pending) : ¬ w₀.Faultless := by
  intro hf
  obtain ⟨m, d, hm, hd, -, hfails⟩ := h
  exact hfails.not_total hs hf (hf s _ (hs.computation hm hd))

/-- Writing a signal does not change who reads whom, if it keeps that of the signal. -/
theorem Sound.put {pending' : String → Prop} (h : Sound w₀ w pending) (hn : w.get name = some n)
    (ho : m.observers = n.observers) (hc : m.derived.map (·.compute) = n.derived.map (·.compute))
    (hs : m.derived.map (·.sources) = n.derived.map (·.sources))
    (hsettled : ∀ a k d, (w.put name m).get a = some k → k.derived = some d → d.stale = false → ¬ pending' a →
      Settled (w.put name m) d.sources k.value d.compute) : Sound w₀ (w.put name m) pending' := by
  have hobservers {t k} (hk : w.get t = some k) : ∃ k', (w.put name m).get t = some k' ∧ k'.observers = k.observers := by
    by_cases ht : t = name
    · subst ht
      cases hn.symm.trans hk
      exact ⟨m, get_put_self, ho⟩
    · exact ⟨k, (get_put_of_ne ht).trans hk, rfl⟩
  have hsources {a k d} (hk : (w.put name m).get a = some k) (hd : k.derived = some d) :
      ∃ k' d', w.get a = some k' ∧ k'.derived = some d' ∧ d.sources = d'.sources := by
    by_cases ha : a = name
    · subst ha
      cases get_put_self.symm.trans hk
      rw [hd, Option.map_some] at hs
      obtain ⟨d', hd', hs⟩ := Option.map_eq_some_iff.mp hs.symm
      exact ⟨n, d', hn, hd', hs.symm⟩
    · exact ⟨k, d, (get_put_of_ne ha).symm.trans hk, hd, rfl⟩
  refine ⟨h.like.trans (like_put hn hc), fun t k o hk hmem => ?_, fun a k d t hk hd hmem => ?_, hsettled⟩
  · obtain ⟨k', hk'⟩ := Option.isSome_iff_exists.mp (((like_put hn hc).isSome t).symm.trans (by rw [hk]; rfl))
    obtain ⟨k'', hk'', ho'⟩ := hobservers hk'
    cases hk.symm.trans hk''
    exact h.observers t k' o hk' (ho' ▸ hmem)
  · obtain ⟨k', d', hk', hd', hs'⟩ := hsources hk hd
    obtain ⟨b, hb, hmem⟩ := h.sources a k' d' t hk' hd' (hs' ▸ hmem)
    obtain ⟨b', hb', ho'⟩ := hobservers hb
    exact ⟨b', hb', ho' ▸ hmem⟩

/-- A cell that is written, or a derived signal that is made stale, leaves its observers pending. -/
theorem Sound.put_stale (h : Sound w₀ w pending) (hn : w.get name = some n) (ho : m.observers = n.observers)
    (hd : m.derived = n.derived.map fun d => { d with stale := true }) :
    Sound w₀ (w.put name m) (fun a => (pending a ∧ a ≠ name) ∨ a ∈ n.observers) := by
  have hc : m.derived.map (·.compute) = n.derived.map (·.compute) := by rw [hd, Option.map_map]; rfl
  refine h.put hn ho hc (by rw [hd, Option.map_map]; rfl) fun a k e hk he hf hp => ?_
  by_cases ha : a = name
  · subst ha
    cases get_put_self.symm.trans hk
    rw [hd] at he
    obtain ⟨d, -, rfl⟩ := Option.map_eq_some_iff.mp he
    cases hf
  · rw [get_put_of_ne ha] at hk
    have hpending : ¬ pending a := fun hpa => hp (.inl ⟨hpa, ha⟩)
    -- who is not told does not read the signal
    refine (h.settled a k e hk he hf hpending).congr (like_put hn hc) fun t ht b hb hfresh => ⟨b, ?_, hfresh, rfl⟩
    rw [get_put_of_ne, hb]
    rintro rfl
    obtain ⟨b', hb', hmem⟩ := h.sources a k e t hk he ht
    cases hn.symm.trans hb'
    exact hp (.inr hmem)

theorem Sound.exists_derived {r : Reading (Outcome Value)} (h : Sound w₀ w pending)
    (hc : w₀.computation? name = some r) : ∃ n d, w.get name = some n ∧ n.derived = some d := by
  rw [← h.like.computation] at hc
  obtain ⟨n, hn, hd⟩ := Option.bind_eq_some_iff.mp hc
  obtain ⟨d, hd, -⟩ := Option.map_eq_some_iff.mp hd
  exact ⟨n, d, hn, hd⟩

/-- Who subscribes to a signal makes no difference. -/
theorem Sound.put_same (h : Sound w₀ w pending) (hn : w.get name = some n) (ho : m.observers = n.observers)
    (hv : m.value = n.value) (hd : m.derived = n.derived) : Sound w₀ (w.put name m) pending := by
  have hget {a k} (hk : (w.put name m).get a = some k) :
      ∃ k', w.get a = some k' ∧ k.value = k'.value ∧ k.derived = k'.derived := by
    by_cases ha : a = name
    · subst ha
      cases get_put_self.symm.trans hk
      exact ⟨n, hn, hv, hd⟩
    · exact ⟨k, (get_put_of_ne ha).symm.trans hk, rfl, rfl⟩
  have hlike : Like w (w.put name m) := like_put hn (by rw [hd])
  have hkept : Kept w (w.put name m) := fun a k hk hf => by
    obtain ⟨k', hk'⟩ := Option.isSome_iff_exists.mp ((hlike.isSome a).trans (by rw [hk]; rfl))
    obtain ⟨k'', hk'', hv', hd'⟩ := hget hk'
    cases hk.symm.trans hk''
    exact ⟨k', hk', by rw [Signal.isStale, hd']; exact hf, hv'⟩
  refine h.put hn ho (by rw [hd]) (by rw [hd]) fun a k e hk he hf hp => ?_
  obtain ⟨k', hk', hv', hd'⟩ := hget hk
  rw [hv']
  exact (h.settled a k' e hk' (hd' ▸ he) hf hp).kept hlike hkept

/-- Nothing has to be done for a pending signal that is no derived one, or is stale. -/
theorem Sound.drop (h : Sound w₀ w pending)
    (hs : ∀ n d, w.get name = some n → n.derived = some d → d.stale = true) :
    Sound w₀ w (fun a => pending a ∧ a ≠ name) := by
  refine ⟨h.like, h.observers, h.sources, fun a n d hn hd hf hp => h.settled a n d hn hd hf fun ha => hp ⟨ha, ?_⟩⟩
  rintro rfl
  rw [hs n d hn hd] at hf
  cases hf

end Network

namespace Flow
open Network
variable {β : Type} {w₀ w : Network} {pending : String → Prop} {rank : String → Nat} {name s : String} {n : Signal}
  {d : Derived} {v : Value} {observers : List String} {E : Fault → Network → Prop}

theorem run_inTurn : (inTurn observers).run.run w =
    (.ok (w.arrange w.turns observers), { w with turns := w.turns + 1 }) := rfl

theorem recompute_spec (hr : w₀.Ranked rank) (h : Sound w₀ w pending) (hn : w.get name = some n)
    (hd : n.derived = some d) (hcurrent : d.stale = true ∨ ¬ pending name) :
    Ensures (fun v w' => Refreshed w₀ pending rank w₀.signals.length w w' ∧ Finds w' name (.ok (some v)))
      (fun e w' => Refreshed w₀ pending rank w₀.signals.length w w' ∧ Finds w' name (.error e)) (recompute name) w := by
  have hbound : rank name < w₀.signals.length := hr.bound name (h.isSome hn)
  refine Ensures.bind_of run_size ?_
  rw [h.like.length]
  exact (compute_spec hr _ name w n d h hn hd hcurrent hbound).mono (fun _ _ hv => ⟨hv.1.mono hbound, hv.2⟩)
    fun _ _ he => ⟨he.1.mono hbound, he.2⟩

/-- Reading a signal at any time. -/
theorem readWith_recompute_spec (hr : w₀.Ranked rank) (h : Sound w₀ w pending) :
    Ensures (fun v w' => Refreshed w₀ pending rank w₀.signals.length w w' ∧ Finds w' s (.ok v))
      (fun e w' => Refreshed w₀ pending rank w₀.signals.length w w' ∧ Finds w' s (.error e))
      (readWith recompute s) w :=
  readWith_spec h fun _ _ hn hd hstale => recompute_spec hr h hn hd (.inl hstale)

/-- All subscribers are told, and may read at any time. -/
theorem tell_spec (hr : w₀.Ranked rank) (h : Sound w₀ w pending) :
    Ensures (fun _ w' => Sound w₀ w' pending ∧ Network.Kept w w' ∧
      ∃ news, w'.told = w.told ++ news ∧ ∀ s ∈ n.subscribers, (s, v) ∈ news) E (tell n v) w := by
  unfold tell
  refine Ensures.bind (Ensures.forIn (I := fun rest w' => Sound w₀ w' pending ∧ Network.Kept w w' ∧
    ∃ news, w'.told = w.told ++ news ∧ ∀ s ∈ n.subscribers, s ∈ rest ∨ (s, v) ∈ news)
    ⟨h, .refl w, [], (List.append_nil _).symm, fun s hs => .inl hs⟩ ?_) ?_
  · rintro c rest w₁ ⟨hw₁, hkept, news, hnews, hdone⟩
    have hnoted : Sound w₀ { w₁ with told := w₁.told ++ [(c, v)] } pending := hw₁.of_signals rfl rfl
    refine Ensures.bind_of rfl ?_
    refine Ensures.bind_of rfl ?_
    -- what a subscriber computes tells nobody
    have hquiet := follow_leaves (readWith_leaves recompute_quiet) (w₁.hear c v) []
    refine Ensures.bind ((follow_spec rank w₀.signals.length hnoted fun s w' _ h' =>
      readWith_recompute_spec hr h').and hquiet.ensures) ?_
    rintro ⟨out, fin⟩ w₂ ⟨⟨hw₂, -⟩, hw₂'⟩
    refine ⟨rfl, hw₂.sound, hkept.trans (Network.Kept.trans (.refl w₁) hw₂.kept), news ++ [(c, v)], ?_, fun s hs => ?_⟩
    · rw [hw₂'.told, hnews, List.append_assoc]
    · rcases hdone s hs with hs | hs
      · rcases List.mem_cons.mp hs with rfl | hs
        · exact .inr (List.mem_append_right _ (List.mem_singleton_self _))
        · exact .inl hs
      · exact .inr (List.mem_append_left _ hs)
  · rintro _ w' ⟨hw', hkept, news, hnews, hdone⟩
    exact ⟨hw', hkept, news, hnews, fun s hs => (hdone s hs).resolve_left List.not_mem_nil⟩

/-- A signal with subscribers is up to date afterwards, and they are told unless it is kept. -/
theorem renew_spec (hr : w₀.Ranked rank) (h : Sound w₀ w pending) (hn : w.get name = some n) (hd : n.derived = some d)
    (hp : ¬ pending name) :
    Ensures (fun _ w' => Sound w₀ w' pending ∧ Network.Kept w w' ∧ (n.subscribers ≠ [] →
        ∃ m, w'.get name = some m ∧ m.isStale = false ∧ (n.keeps m.value = true ∨
          ∃ news, w'.told = w.told ++ news ∧ ∀ s ∈ n.subscribers, (s, m.value) ∈ news)))
      (fun _ _ => ¬ w₀.Faultless) (renew name) w := by
  refine Ensures.bind_of (run_signal hn) ?_
  split
  · next hnone => exact ⟨h, .refl w, fun hne => absurd (List.isEmpty_iff.mp hnone) hne⟩
  -- it may have been computed in between, and then from what is held
  refine Ensures.bind (((recompute_spec hr h hn hd (.inr hp)).mono (fun _ _ hv => hv)
    fun e w' he => he.2.faulty he.1.sound).and (recompute_quiet name).ensures) ?_
  rintro v w₁ ⟨⟨hw₁, m, hm, hfresh, rfl⟩, hquiet⟩
  have hsubscribers : m.subscribers = n.subscribers := congrArg Prod.fst (hquiet.audience.of_get hn hm)
  split
  · refine Ensures.bind_of (run_signal hm) ((tell_spec hr hw₁.sound).mono ?_ fun _ _ he => he)
    rintro _ w₂ ⟨hw₂, hkept, news, hnews, htold⟩
    obtain ⟨m', hm', hfresh', hvalue⟩ := hkept name m hm hfresh
    refine ⟨hw₂, hw₁.kept.trans hkept, fun _ => ⟨m', hm', hfresh', .inr ⟨news, by rw [hnews, hquiet.told], ?_⟩⟩⟩
    rw [hvalue, ← hsubscribers]
    exact htold
  · next hkeeps => exact ⟨hw₁.sound, hw₁.kept, fun _ => ⟨m, hm, hfresh, .inl (by simpa using hkeeps)⟩⟩

/-- Telling observers one after another, in whatever order. -/
theorem inTurn_spec {I : Network → Prop} {mark : String → PUnit → Flow (ForInStep PUnit)} {k : PUnit → Flow β}
    {Q : β → Network → Prop} (ha : w₀.Arranges) (h : Sound w₀ w (fun a => pending a ∨ a ∈ observers))
    (hI : I { w with turns := w.turns + 1 })
    (hmark : ∀ o ∈ observers, ∀ p w, Sound w₀ w p → I w →
      Ensures (fun next w' => next = .yield ⟨⟩ ∧ Sound w₀ w' (fun a => p a ∧ a ≠ o) ∧ I w') E (mark o ⟨⟩) w)
    (hk : ∀ w', Sound w₀ w' pending → I w' → Ensures Q E (k ⟨⟩) w') :
    Ensures Q E (do let os ← inTurn observers; let r ← forIn os ⟨⟩ mark; k r) w := by
  have hmem : ∀ o, o ∈ w.arrange w.turns observers ↔ o ∈ observers := fun o => by
    rw [h.like.arrange]
    exact (ha _ _).mem_iff
  refine Ensures.bind_of run_inTurn (Ensures.bind (Ensures.forIn (I := fun rest w => rest ⊆ observers ∧
    Sound w₀ w (fun a => pending a ∨ a ∈ rest) ∧ I w) ⟨fun o => (hmem o).mp, ?_, hI⟩ ?_) ?_)
  · have hturn : Sound w₀ { w with turns := w.turns + 1 } (fun a => pending a ∨ a ∈ observers) := h.of_signals rfl rfl
    exact hturn.mono fun a => Or.imp id (hmem a).mpr
  · rintro o rest w' ⟨hrest, hw', hIw'⟩
    obtain ⟨ho, hrest⟩ := List.cons_subset.mp hrest
    refine (hmark o ho _ w' hw' hIw').mono (fun next w'' hnext => ⟨hnext.1, hrest, hnext.2.1.mono ?_, hnext.2.2⟩)
      fun _ _ he => he
    rintro a ⟨ha | ha, hne⟩
    · exact .inl ha
    · exact .inr ((List.mem_cons.mp ha).resolve_left hne)
  · rintro _ w' ⟨-, hw', hIw'⟩
    exact hk w' (hw'.mono fun a ha => ha.resolve_right List.not_mem_nil) hIw'

/-- Marking a signal stale does what its being pending asks for. -/
theorem markStale_spec (hr : w₀.Ranked rank) (ha : w₀.Arranges) : ∀ fuel name w pending, Sound w₀ w pending →
    w₀.signals.length ≤ fuel + rank name →
    Ensures (fun _ w' => Sound w₀ w' (fun a => pending a ∧ a ≠ name)) (fun _ _ => ¬ w₀.Faultless)
      (markStale fuel name) w := by
  intro fuel
  induction fuel with
  | zero =>
    intro name w pending h hfuel
    refine Ensures.pure (h.drop fun n d hn hd => ?_)
    have := hr.bound name (h.isSome hn)
    omega
  | succ fuel ih =>
    intro name w pending h hfuel
    rcases stale_or_fresh w name with hstale | ⟨n, d, hn, hd, hfresh⟩
    · exact Ensures.of_run (run_markStale_of_stale hstale) (h.drop hstale)
    have hput := h.put_stale (m := { n with derived := some { d with stale := true } }) hn rfl (by rw [hd]; rfl)
    rw [Ensures, run_markStale hn hd hfresh]
    refine inTurn_spec (I := fun _ => True) ha hput trivial (fun o ho p w' hw' _ => ?_) fun w₂ hw₂ _ => ?_
    · have hlt := hr.lt o name (h.observers name n o hn ho)
      exact Ensures.bind (ih o w' p hw' (by omega)) fun _ w'' hw'' => ⟨rfl, hw'', trivial⟩
    · obtain ⟨n₂, d₂, hn₂, hd₂⟩ := hw₂.exists_derived (h.computation hn hd)
      exact (renew_spec hr hw₂ hn₂ hd₂ fun hp => hp.2 rfl).mono (fun _ _ hw₃ => hw₃.1) fun _ _ he => he

theorem write_spec (hr : w₀.Ranked rank) (ha : w₀.Arranges) (h : Sound w₀ w (fun _ => False)) (hn : w.get name = some n)
    (hcell : n.derived = none) :
    Ensures (fun _ w' => Sound w₀ w' (fun _ => False)) (fun _ _ => ¬ w₀.Faultless) (write name v) w := by
  unfold write
  refine Ensures.bind_of (run_signal hn) ?_
  have hd : ¬ n.derived.isSome = true := by rw [hcell]; exact Bool.false_ne_true
  simp only [if_neg hd]
  split
  · exact Ensures.pure h
  have hput := h.put_stale (m := { n with value := v, version := n.version + 1 }) hn rfl (by rw [hcell]; rfl)
  refine Ensures.bind_of run_put (inTurn_spec (I := fun _ => True) ha (hput.mono fun _ => Or.imp And.left id) trivial
    (fun o ho p w' hw' _ => ?_) fun w₂ hw₂ _ => ?_)
  · refine Ensures.bind_of run_size (Ensures.bind (markStale_spec hr ha _ o w' p hw' ?_) fun _ w'' hw'' =>
      ⟨rfl, hw'', trivial⟩)
    rw [hw'.like.length]
    exact Nat.le_add_right _ _
  · obtain ⟨n₂, hn₂⟩ := hw₂.exists_get (h.isSome hn)
    exact Ensures.bind_of (run_signal hn₂) (Ensures.bind (tell_spec hr hw₂) fun _ _ hw₃ => Ensures.pure hw₃.1)

end Flow
end FormRules
