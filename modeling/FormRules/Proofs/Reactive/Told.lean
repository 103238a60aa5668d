import FormRules.Proofs.Reactive.Consistency
import FormRules.Proofs.Value.Transitivity

/-!
# Changes that subscribers are told of

A derived signal that has subscribers is computed anew during every write that reaches it, so that its value before
can be compared with the one afterwards. This takes that nothing computes it in between. What its observers do
between its being marked and its being compared does so as soon as one of them has subscribers; therefore only a
signal on which no other subscribed one depends (`Topmost`) is sure to tell its own.
-/

namespace FormRules

/-- Whether going from one value to another is no change of a signal, by its comparison. -/
def Signal.counts (n : Signal) (u v : Value) : Bool := if n.strict then u.strictEq v else u.unchanged v

/-- Who may be affected by a change of a signal. -/
def Signal.listeners (n : Signal) : List String × List Nat := (n.observers, n.subscribers)

/-- Two values between which a signal does not tell. -/
def Signal.Alike (n : Signal) (u v : Value) : Prop := u = v ∨ n.counts u v = true

namespace Signal
variable {n m : Signal} {u v x : Value}

theorem counts_trans (h : n.counts u v = true) (h' : n.counts v x = true) : n.counts u x = true := by
  unfold counts at *
  split at h
  · next hs =>
    rw [if_pos hs] at h' ⊢
    exact Value.strictEq_trans h h'
  · next hs =>
    rw [if_neg hs] at h' ⊢
    exact Value.unchanged_trans h h'

theorem Alike.trans (h : n.Alike u v) (h' : n.Alike v x) : n.Alike u x := by
  rcases h with rfl | h
  · exact h'
  · rcases h' with rfl | h'
    · exact .inr h
    · exact .inr (counts_trans h h')

theorem counts_congr (h : m.audience = n.audience) : m.counts u v = n.counts u v := by
  have hstrict : m.strict = n.strict := congrArg Prod.snd h
  rw [counts, counts, hstrict]

end Signal

namespace Network
open Relation
variable {w₀ w w' w'' : Network} {pending : String → Prop} {rank : String → Nat} {name s : String} {n m : Signal}
  {c : String → Prop}

/-- Whether nothing that depends on a signal has subscribers. -/
def Topmost (w : Network) (name : String) : Prop :=
  ∀ a m, TransGen w.MayRead a name → w.get a = some m → m.subscribers = []

/-- Whether everything that has subscribers is up to date. -/
def Current (w : Network) : Prop := ∀ s m, w.get s = some m → m.subscribers ≠ [] → m.isStale = false

theorem Like.mayRead (h : Like w w') : w'.MayRead = w.MayRead := by
  funext a b
  rw [MayRead, MayRead, h.isSome, h.computation]

theorem SameAudience.get {w w' : Network} (h : SameAudience w w') (hm : w'.get s = some m) :
    ∃ n, w.get s = some n ∧ m.audience = n.audience := by
  have hs := h s
  rw [hm] at hs
  obtain ⟨n, hn, ha⟩ := Option.map_eq_some_iff.mp hs.symm
  exact ⟨n, hn, ha.symm⟩

theorem Topmost.of_audience (h : w.Topmost name) (hl : Like w w') (ha : SameAudience w w') : w'.Topmost name := by
  intro a m hread hm
  obtain ⟨n, hn, haudience⟩ := ha.get hm
  have hsubscribers : m.subscribers = n.subscribers := congrArg Prod.fst haudience
  rw [hsubscribers]
  exact h a n (hl.mayRead ▸ hread) hn

/-! ## Marking where nobody listens -/

/-- All signals have the same observers and subscribers. -/
def SameListeners (w w' : Network) : Prop := ∀ s, (w'.get s).map Signal.listeners = (w.get s).map Signal.listeners

/-- Only signals of `c` have been marked, and nothing else has happened. -/
structure Marked (c : String → Prop) (w w' : Network) : Prop where
  told : w'.told = w.told
  arrange : w'.arrange = w.arrange
  same : ∀ s, ¬ c s → w'.get s = w.get s
  listeners : SameListeners w w'

/-- Nothing of `c` has subscribers, and what observes a signal of `c` is of `c`. -/
structure Mute (c : String → Prop) (w : Network) : Prop where
  subscribers : ∀ s m, c s → w.get s = some m → m.subscribers = []
  observers : ∀ s m o, c s → w.get s = some m → o ∈ m.observers → c o
  arranges : w.Arranges

theorem sameListeners_put (hn : w.get name = some n) (hm : m.listeners = n.listeners) :
    SameListeners w (w.put name m) := by
  intro s
  by_cases h : s = name
  · rw [h, get_put_self, hn, Option.map_some, Option.map_some, hm]
  · rw [get_put_of_ne h]

theorem SameListeners.get (h : SameListeners w w') (hm : w'.get s = some m) :
    ∃ n, w.get s = some n ∧ m.observers = n.observers ∧ m.subscribers = n.subscribers := by
  have hs := h s
  rw [hm] at hs
  obtain ⟨n, hn, hl⟩ := Option.map_eq_some_iff.mp hs.symm
  exact ⟨n, hn, (congrArg Prod.fst hl).symm, (congrArg Prod.snd hl).symm⟩

theorem Mute.congr (hw : Mute c w) (h : SameListeners w w') (ha : w'.arrange = w.arrange) : Mute c w' where
  subscribers s m hs hm := by
    obtain ⟨n, hn, -, hsub⟩ := h.get hm
    exact hsub.trans (hw.subscribers s n hs hn)
  observers s m o hs hm ho := by
    obtain ⟨n, hn, hobs, -⟩ := h.get hm
    exact hw.observers s n o hs hn (hobs ▸ ho)
  arranges turn os := by
    rw [ha]
    exact hw.arranges turn os

namespace Marked

theorem refl (c : String → Prop) (w : Network) : Marked c w w := ⟨rfl, rfl, fun _ _ => rfl, fun _ => rfl⟩

theorem trans (h : Marked c w w') (h' : Marked c w' w'') : Marked c w w'' :=
  ⟨h'.told.trans h.told, h'.arrange.trans h.arrange, fun s hs => (h'.same s hs).trans (h.same s hs),
    fun s => (h'.listeners s).trans (h.listeners s)⟩

theorem put (hc : c name) (hn : w.get name = some n) (hm : m.listeners = n.listeners) : Marked c w (w.put name m) :=
  ⟨rfl, rfl, fun _ hs => get_put_of_ne fun h => hs (h ▸ hc), sameListeners_put hn hm⟩

theorem mute (h : Marked c w w') (hw : Mute c w) : Mute c w' := hw.congr h.listeners h.arrange

end Marked

end Network

namespace Flow
open Network Relation
variable {w₀ w w' : Network} {pending : String → Prop} {rank : String → Nat} {name target : String} {n : Signal}
  {d : Derived} {c : String → Prop}

/-- Marking goes up through the observers, and computes nothing. -/
theorem markStale_marked (fuel : Nat) (hc : c name) (hw : Mute c w) :
    Ensures (fun _ w' => Marked c w w') (fun _ _ => False) (markStale fuel name) w := by
  induction fuel generalizing name w with
  | zero => exact Ensures.pure (.refl c w)
  | succ fuel ih =>
    rcases stale_or_fresh w name with hstale | ⟨n, d, hn, hd, hfresh⟩
    · exact Ensures.of_run (run_markStale_of_stale hstale) (.refl c w)
    have hput : Marked c w (w.put name { n with derived := some { d with stale := true } }) := .put hc hn rfl
    rw [Ensures, run_markStale hn hd hfresh]
    refine Ensures.bind_of run_inTurn (Ensures.bind (Ensures.forIn (I := fun rest w' => rest ⊆ n.observers ∧
      Marked c w w') ⟨fun o => ((hput.mute hw).arranges _ _).mem_iff.mp, hput.told, hput.arrange, hput.same,
      hput.listeners⟩ ?_) ?_)
    · rintro o rest w' ⟨hrest, hw'⟩
      obtain ⟨ho, hrest⟩ := List.cons_subset.mp hrest
      exact Ensures.bind (ih (hw.observers name n o hc hn ho) (hw'.mute hw)) fun _ w'' hw'' => ⟨rfl, hrest, hw'.trans hw''⟩
    · rintro _ w' ⟨-, hw'⟩
      have hlisteners := hw'.listeners name
      rw [hn] at hlisteners
      obtain ⟨m, hm, -⟩ := Option.map_eq_some_iff.mp hlisteners
      refine Ensures.bind_of (run_signal hm) ?_
      rw [(hw'.mute hw).subscribers name m hc hm]
      exact Ensures.pure hw'

/-! ## Marking a signal that has subscribers -/

theorem run_of_discard {β : Type} {y : Flow β} (h : (do let _ ← y : Flow Unit).run.run w = (.ok (), w')) :
    ∃ b, y.run.run w = (.ok b, w') := by
  rw [run_bind] at h
  split at h
  · next b w₁ hrun =>
    obtain rfl : w₁ = w' := congrArg Prod.snd h
    exact ⟨b, hrun⟩
  · cases h

/-- A signal with subscribers is up to date again once it has been marked. If it is a topmost one, they have been told
unless its value is kept. -/
theorem markStale_own (hr : w₀.Ranked rank) (ha : w₀.Arranges) (h : Sound w₀ w pending) (hn : w.get name = some n)
    (hd : n.derived = some d) (hfresh : d.stale = false) (hs : n.subscribers ≠ []) {fuel : Nat}
    (hfuel : w₀.signals.length ≤ fuel + rank name) :
    Ensures (fun _ w' => ∃ m, w'.get name = some m ∧ m.isStale = false ∧ (w.Topmost name →
        n.keeps m.value = true ∨ ∃ news, w'.told = w.told ++ news ∧ ∀ s ∈ n.subscribers, (s, m.value) ∈ news))
      (fun _ _ => ¬ w₀.Faultless) (markStale fuel name) w := by
  obtain ⟨fuel, rfl⟩ : ∃ k, fuel = k + 1 := by
    have := hr.bound name (h.isSome hn)
    exact Nat.exists_eq_succ_of_ne_zero (by omega)
  have hobserves (o : String) (ho : o ∈ n.observers) : w.MayRead o name := by
    rw [h.like.mayRead]
    exact h.observers name n o hn ho
  -- the signal itself is not among those that depend on it
  have hself : ¬ TransGen w.MayRead name name := acyclic_of_rank rank (h.like.mayRead ▸ hr.lt) name
  have hmute (ht : w.Topmost name) : Mute (TransGen w.MayRead · name) w := by
    refine ⟨fun s m hs hm => ht s m hs hm, fun s m o hs hm ho => .head ?_ hs, ?_⟩
    · rw [h.like.mayRead]
      exact h.observers s m o hm ho
    · intro turn os
      rw [h.like.arrange]
      exact ha turn os
  have hput := h.put_stale (m := { n with derived := some { d with stale := true } }) hn rfl (by rw [hd]; rfl)
  rw [Ensures, run_markStale hn hd hfresh]
  set w₁ := w.put name { n with derived := some { d with stale := true } } with hw₁
  have hmute₁ (ht : w.Topmost name) : Mute (TransGen w.MayRead · name) w₁ :=
    (hmute ht).congr (sameListeners_put hn rfl) rfl
  have hquiet : Quiet w w₁ := quiet_put hn rfl
  refine inTurn_spec (I := fun w' => SameAudience w w' ∧ (w.Topmost name → Marked (TransGen w.MayRead · name) w₁ w'))
    ha hput ⟨hquiet.audience, fun _ => ⟨rfl, rfl, fun _ _ => rfl, fun _ => rfl⟩⟩ ?_ ?_
  · rintro o ho p w' hw' ⟨hsame, hmarked⟩
    have hlt := hr.lt o name (h.observers name n o hn ho)
    have hmark := Ensures.imp fun ht : w.Topmost name =>
      markStale_marked fuel (.single (hobserves o ho)) ((hmarked ht).mute (hmute₁ ht))
    refine Ensures.bind ((markStale_spec hr ha fuel o w' p hw' (by omega)).and
      ((markStale_grown fuel o).ensures.and hmark)) ?_
    rintro _ w'' ⟨hw'', hgrown, hmarked'⟩
    exact ⟨rfl, hw'', hsame.trans hgrown.audience, fun ht => (hmarked ht).trans (hmarked' ht)⟩
  · rintro w₂ hw₂ ⟨hsame, hmarked⟩
    obtain ⟨n₂, d₂, hn₂, hd₂⟩ := hw₂.exists_derived (h.computation hn hd)
    have hsubscribers : n₂.subscribers = n.subscribers := congrArg Prod.fst (hsame.of_get hn hn₂)
    refine (renew_spec hr hw₂ hn₂ hd₂ fun hp => hp.2 rfl).mono (fun _ w₃ hw₃ => ?_) fun _ _ he => he
    obtain ⟨m, hm, hfresh', htold⟩ := hw₃.2.2 (by rwa [hsubscribers])
    refine ⟨m, hm, hfresh', fun ht => ?_⟩
    -- nothing has computed the signal, so it is compared with the value that it had
    have hsame₂ := (hmarked ht).same name hself
    rw [hn₂, hw₁, get_put_self, Option.some_inj] at hsame₂
    subst hsame₂
    refine htold.imp id ?_
    rintro ⟨news, hnews, hall⟩
    exact ⟨news, by rw [hnews, (hmarked ht).told, hquiet.told], hall⟩

end Flow

namespace Network
variable {w₀ w w' w'' : Network} {pending : String → Prop} {rank : String → Nat} {name s : String} {n m : Signal}

/-- Since the state `w`, in which `name` was `n`, its subscribers have been told of all changes of it, if it is a
topmost one. -/
structure Minded (w : Network) (name : String) (n : Signal) (w' : Network) : Prop where
  grown : Grown w w'
  fresh : ∃ m, w'.get name = some m ∧ m.isStale = false ∧ (w.Topmost name → n.Alike n.value m.value ∨
    ∃ news, w'.told = w.told ++ news ∧ ∀ s ∈ n.subscribers, ∃ x, (s, x) ∈ news ∧ n.Alike x m.value)

/-- Whether a signal that is up to date is left so, with its value. -/
def KeptAt (name : String) (w w' : Network) : Prop :=
  ∀ m, w.get name = some m → m.isStale = false → ∃ m', w'.get name = some m' ∧ m'.isStale = false ∧ m'.value = m.value

theorem Kept.at (h : Kept w w') (name : String) : KeptAt name w w' := h name

theorem keptAt_put (h : s ≠ name) : KeptAt name w (w.put s m) := by
  intro k hk hf
  exact ⟨k, (get_put_of_ne h.symm).trans hk, hf, rfl⟩

namespace Minded

theorem refl (hn : w.get name = some n) (hf : n.isStale = false) : Minded w name n w :=
  ⟨refl_of Grown w, n, hn, hf, fun _ => .inl (.inl rfl)⟩

/-- What one has been told is not taken back. -/
theorem keep (h : Minded w name n w') (hk : KeptAt name w' w'') (hg : Grown w' w'') : Minded w name n w'' := by
  obtain ⟨m, hm, hf, htold⟩ := h.fresh
  obtain ⟨m', hm', hf', hv⟩ := hk m hm hf
  refine ⟨trans_of Grown h.grown hg, m', hm', hf', fun ht => ?_⟩
  rw [hv]
  refine (htold ht).imp id ?_
  rintro ⟨news, hnews, hall⟩
  obtain ⟨news', hnews'⟩ := hg.told
  refine ⟨news ++ news', by rw [hnews', hnews, List.append_assoc], fun s hs => ?_⟩
  obtain ⟨x, hx, halike⟩ := hall s hs
  exact ⟨x, List.mem_append_left news' hx, halike⟩

/-- When the signal is computed once more, either its value is kept or one is told the new one. -/
theorem renew (h : Minded w name n w') (hn : w.get name = some n) (hg : Grown w' w'') (hm : w'.get name = some m)
    (hown : ∃ k, w''.get name = some k ∧ k.isStale = false ∧ (w.Topmost name →
      m.keeps k.value = true ∨ ∃ news, w''.told = w'.told ++ news ∧ ∀ s ∈ m.subscribers, (s, k.value) ∈ news)) :
    Minded w name n w'' := by
  obtain ⟨m', hm', hf, htold⟩ := h.fresh
  cases hm.symm.trans hm'
  obtain ⟨k, hk, hf', htold'⟩ := hown
  have haudience := h.grown.audience.of_get hn hm
  have hsubscribers : m.subscribers = n.subscribers := congrArg Prod.fst haudience
  obtain ⟨news, hnews⟩ := h.grown.told
  refine ⟨trans_of Grown h.grown hg, k, hk, hf', fun ht => ?_⟩
  rcases htold' ht with hkeeps | ⟨news', hnews', hall'⟩
  · have halike : n.Alike m.value k.value := .inr ((Signal.counts_congr haudience).symm.trans hkeeps)
    rcases htold ht with hsame | ⟨news, hnews, hall⟩
    · exact .inl (hsame.trans halike)
    · obtain ⟨news', hnews'⟩ := hg.told
      refine .inr ⟨news ++ news', by rw [hnews', hnews, List.append_assoc], fun s hs => ?_⟩
      obtain ⟨x, hx, hxm⟩ := hall s hs
      exact ⟨x, List.mem_append_left news' hx, hxm.trans halike⟩
  · refine .inr ⟨news ++ news', by rw [hnews', hnews, List.append_assoc], fun s hs => ?_⟩
    exact ⟨k.value, List.mem_append_right news (hall' s (hsubscribers ▸ hs)), .inl rfl⟩

end Minded

end Network

namespace Flow
open Network Relation
variable {w₀ w w' : Network} {pending : String → Prop} {rank : String → Nat} {name target cell : String} {n k : Signal}
  {v : Value}

/-- Whatever signal is marked, the subscribers of `name` learn of what this does to it. -/
theorem markStale_minded (hr : w₀.Ranked rank) (ha : w₀.Arranges) (hn : w.get name = some n) (hs : n.subscribers ≠ [])
    (hl : Like w₀ w) (fuel : Nat) (hw' : Sound w₀ w' pending) (h : Minded w name n w')
    (hfuel : w₀.signals.length ≤ fuel + rank target) :
    Ensures (fun _ w'' => Minded w name n w'') (fun _ _ => ¬ w₀.Faultless) (markStale fuel target) w' := by
  induction fuel generalizing target w' pending with
  | zero => exact Ensures.pure h
  | succ fuel ih =>
    rcases stale_or_fresh w' target with hstale | ⟨m, d, hm, hd, hfresh⟩
    · exact Ensures.of_run (run_markStale_of_stale hstale) h
    by_cases htarget : target = name
    · subst htarget
      have hsubscribers : m.subscribers = n.subscribers := congrArg Prod.fst (h.grown.audience.of_get hn hm)
      refine ((markStale_own hr ha hw' hm hd hfresh (by rwa [hsubscribers]) hfuel).and
        (markStale_grown (fuel + 1) target).ensures).mono ?_ fun _ _ he => he
      rintro _ w'' ⟨⟨k, hk, hf, htold⟩, hgrown⟩
      exact h.renew hn hgrown hm ⟨k, hk, hf, fun ht => htold (ht.of_audience (hl.between hw'.like) h.grown.audience)⟩
    · have hput := hw'.put_stale (m := { m with derived := some { d with stale := true } }) hm rfl (by rw [hd]; rfl)
      have hquiet : Quiet w' (w'.put target { m with derived := some { d with stale := true } }) := quiet_put hm rfl
      have hminded := h.keep (keptAt_put htarget) hquiet.grown
      rw [Ensures, run_markStale hm hd hfresh]
      refine inTurn_spec (I := Minded w name n) ha hput (hminded.keep (Kept.refl _ |>.at name) ⟨fun _ => rfl, [], ?_⟩) ?_ ?_
      · exact (List.append_nil _).symm
      · intro o ho p w₁ hw₁ h₁
        have hlt := hr.lt o target (hw'.observers target m o hm ho)
        refine Ensures.bind ((markStale_spec hr ha fuel o w₁ p hw₁ (by omega)).and (ih hw₁ h₁ (by omega))) ?_
        exact fun _ w'' hw'' => ⟨rfl, hw''⟩
      · intro w₂ hw₂ h₂
        obtain ⟨n₂, d₂, hn₂, hd₂⟩ := hw₂.exists_derived (hw'.computation hm hd)
        refine ((renew_spec hr hw₂ hn₂ hd₂ fun hp => hp.2 rfl).and (renew_grown target).ensures).mono ?_ fun _ _ he => he
        rintro _ w₃ ⟨⟨-, hkept, -⟩, hgrown⟩
        exact h₂.keep (hkept.at name) hgrown

theorem write_minded (hr : w₀.Ranked rank) (ha : w₀.Arranges) (h : Sound w₀ w (fun _ => False))
    (hk : w.get cell = some k) (hcell : k.derived = none) (hn : w.get name = some n) (hderived : n.derived.isSome = true)
    (hs : n.subscribers ≠ []) (hf : n.isStale = false) :
    Ensures (fun _ w' => Minded w name n w') (fun _ _ => ¬ w₀.Faultless) (write cell v) w := by
  have hne : cell ≠ name := by
    rintro rfl
    cases hk.symm.trans hn
    rw [hcell] at hderived
    cases hderived
  unfold write
  refine Ensures.bind_of (run_signal hk) ?_
  rw [if_neg (by simp [hcell])]
  split
  · exact Ensures.pure (.refl hn hf)
  have hput := h.put_stale (m := { k with value := v, version := k.version + 1 }) hk rfl (by rw [hcell]; rfl)
  have hquiet : Quiet w (w.put cell { k with value := v, version := k.version + 1 }) := quiet_put hk rfl
  have hminded := (Minded.refl hn hf).keep (keptAt_put hne) hquiet.grown
  refine Ensures.bind_of run_put (inTurn_spec (I := Minded w name n) ha (hput.mono fun _ => Or.imp And.left id)
    (hminded.keep (Kept.refl _ |>.at name) ⟨fun _ => rfl, [], (List.append_nil _).symm⟩) (fun o ho p w₁ hw₁ h₁ => ?_)
    fun w₂ hw₂ h₂ => ?_)
  · have hfuel : w₀.signals.length ≤ w₁.signals.length + rank o := by
      rw [hw₁.like.length]
      exact Nat.le_add_right _ _
    refine Ensures.bind_of run_size (Ensures.bind ((markStale_spec hr ha _ o w₁ p hw₁ hfuel).and
      (markStale_minded hr ha hn hs h.like _ hw₁ h₁ hfuel)) ?_)
    exact fun _ w'' hw'' => ⟨rfl, hw''⟩
  · obtain ⟨k₂, hk₂⟩ := hw₂.exists_get (h.isSome hk)
    refine Ensures.bind_of (run_signal hk₂) (Ensures.bind ((tell_spec hr hw₂).and (tell_grown k₂ v).ensures) ?_)
    rintro _ w₃ ⟨⟨-, hkept, -⟩, hgrown⟩
    exact Ensures.pure (h₂.keep (hkept.at name) hgrown)

end Flow

/-! ## Runs -/

/-- Whether a signal that is subscribed to is up to date. -/
def Access.Current (w : Network) : Access → Prop
  | subscribe name _ => ∀ n, w.get name = some n → n.isStale = false
  | read _ | write _ _ | unsubscribe _ _ => True

namespace Network
open Relation
variable {w₀ w w' : Network} {rank : String → Nat} {name s : String} {n m : Signal} {v : Value}

/-- The states that a network comes to, when what is subscribed to is up to date. -/
inductive Reached (w₀ : Network) : Network → Prop
  | start : Reached w₀ w₀
  | step {w w' : Network} {op : Access} (h : Reached w₀ w) (hop : op.Fits w₀) (hcurrent : op.Current w)
    (hrun : op.perform.run.run w = (.ok (), w')) : Reached w₀ w'

theorem Current.kept (h : w.Current) (hk : Kept w w') (ha : SameAudience w w') : w'.Current := by
  intro s m hm hs
  obtain ⟨n, hn, haudience⟩ := ha.get hm
  have hsubscribers : m.subscribers = n.subscribers := congrArg Prod.fst haudience
  obtain ⟨m', hm', hf, -⟩ := hk s n hn (h s n hn (hsubscribers ▸ hs))
  cases hm.symm.trans hm'
  exact hf

theorem Current.put (h : w.Current) (hn : w.get name = some n) (hf : m.subscribers ≠ [] → m.isStale = false) :
    (w.put name m).Current := by
  intro s k hk hs
  by_cases hname : s = name
  · subst hname
    cases get_put_self.symm.trans hk
    exact hf hs
  · exact h s k ((get_put_of_ne hname).symm.trans hk) hs

/-- A write leaves everything that has subscribers up to date. -/
theorem Current.write (h : w.Current) (hr : w₀.Ranked rank) (ha : w₀.Arranges) (hw : Sound w₀ w (fun _ => False))
    {cell : String} {v : Value} {k : Signal} (hk : w.get cell = some k) (hcell : k.derived = none) {changed : Bool}
    (hrun : (Flow.write cell v).run.run w = (.ok changed, w')) : w'.Current := by
  intro s m hm hs
  have hgrown : Grown w w' := by
    have hgrown := Flow.write_grown cell v w
    rwa [hrun] at hgrown
  obtain ⟨n, hn, haudience⟩ := hgrown.audience.get hm
  have hsubscribers : m.subscribers = n.subscribers := congrArg Prod.fst haudience
  cases hd : m.derived with
  | none => rw [Signal.isStale, hd, Option.any_none]
  | some d =>
    have hlike : Like w w' := hw.like.between ((Flow.write_spec hr ha hw hk hcell).of_ok hrun).like
    have hderived : n.derived.isSome = true := by
      have hc := hlike.computation s
      rw [computation?_of_get hm, computation?_of_get hn, hd] at hc
      cases hd' : n.derived with
      | none => simp [hd'] at hc
      | some _ => rfl
    have hs' := hsubscribers ▸ hs
    obtain ⟨m', hm', hf, -⟩ := ((Flow.write_minded hr ha hw hk hcell hn hderived hs' (h s n hn hs')).of_ok hrun).fresh
    cases hm.symm.trans hm'
    exact hf

/-- Reading computes, and tells nobody. -/
theorem Current.read (h : w.Current) (hr : w₀.Ranked rank) (hw : Sound w₀ w (fun _ => False))
    (hname : (w₀.get name).isSome = true) (hrun : (Flow.read name).run.run w = (.ok v, w')) : w'.Current := by
  have hread : Flow.Ensures (fun _ w' => Kept w w' ∧ SameAudience w w') (fun _ _ => True) (Flow.read name) w := by
    obtain ⟨n, hn⟩ := hw.exists_get hname
    have hquiet := Flow.readWith_leaves Flow.recompute_quiet name
    have hboth := (Flow.readWith_recompute_spec (s := name) hr hw).and hquiet.ensures
    refine .bind_of (Flow.run_signal hn) (.bind (hboth.mono (fun _ _ hv => hv) fun _ _ _ => trivial) ?_)
    rintro o w₁ ⟨⟨hw₁, -⟩, hquiet⟩
    exact .pure ⟨hw₁.kept, hquiet.audience⟩
  obtain ⟨hkept, haudience⟩ := hread.of_ok hrun
  exact h.kept hkept haudience

theorem Sound.cell (h : Sound w₀ w (fun _ => False)) (hn : w.get name = some n) (hc : w₀.computation? name = none) :
    n.derived = none := by
  rw [← h.like.computation, computation?_of_get hn] at hc
  simpa using hc

namespace Reached

theorem sound (h : w₀.Reached w) (hr : w₀.Ranked rank) (ha : w₀.Arranges) (hf : w₀.Fresh) :
    Sound w₀ w (fun _ => False) := by
  induction h with
  | start => exact hf.sound
  | step _ hop _ hrun ih => exact (Flow.perform_spec hr ha ih hop).of_ok hrun

theorem current (h : w₀.Reached w) (hr : w₀.Ranked rank) (ha : w₀.Arranges) (hf : w₀.Fresh)
    (hnone : ∀ s n, w₀.get s = some n → n.subscribers = []) : w.Current := by
  induction h with
  | start => exact fun s n hn hs => absurd (hnone s n hn) hs
  | @step w w' op hw hop hcurrent hrun ih =>
    have hsound := hw.sound hr ha hf
    cases op with
    | read name =>
      obtain ⟨v, hrun⟩ := Flow.run_of_discard hrun
      exact ih.read hr hsound hop hrun
    | write name v =>
      obtain ⟨changed, hrun⟩ := Flow.run_of_discard hrun
      obtain ⟨k, hk⟩ := hsound.exists_get hop.1
      exact ih.write hr ha hsound hk (hsound.cell hk hop.2) hrun
    | subscribe name subscriber =>
      obtain ⟨n, hn⟩ := hsound.exists_get hop
      have hw' : w' = w.put name { n with subscribers := n.subscribers ++ [subscriber] } := by
        rw [Access.perform, Flow.subscribe, Flow.run_bind, Flow.run_signal hn] at hrun
        exact (congrArg Prod.snd hrun).symm
      rw [hw']
      exact ih.put hn fun _ => hcurrent n hn
    | unsubscribe name subscriber =>
      obtain ⟨n, hn⟩ := hsound.exists_get hop
      have hw' : w' = w.put name { n with subscribers := n.subscribers.erase subscriber } := by
        rw [Access.perform, Flow.unsubscribe, Flow.run_change, Network.change, hn] at hrun
        exact (congrArg Prod.snd hrun).symm
      rw [hw']
      refine ih.put hn fun hs => ih name n hn fun hnil => hs ?_
      rw [hnil]
      rfl

end Reached

/-- Whenever a write changes the value of a topmost derived signal, all that have subscribed to it are told the new
value during the write. Nothing is told of a signal on which another one with subscribers depends: that one may have
it computed before its values are compared. -/
theorem told_of_changed {w₀ w : Network} (hfresh : w₀.Fresh) (hsilent : ∀ s n, w₀.get s = some n → n.subscribers = [])
    (htracked : ∀ a r, w₀.computation? a = some r → r.Tracked) (hacyclic : w₀.Acyclic) (harranges : w₀.Arranges)
    (hw : w₀.Reached w) {cell : String} {v : Value} (hcell : (Access.write cell v).Fits w₀) :
    (w₀.Faultless → ∃ changed w', (Flow.write cell v).run.run w = (.ok changed, w')) ∧
    ∀ changed w', (Flow.write cell v).run.run w = (.ok changed, w') →
      ∃ news, w'.told = w.told ++ news ∧ ∀ values values', w.Recomputes values → w'.Recomputes values' →
        ∀ name n, w.get name = some n → n.derived.isSome = true → n.subscribers ≠ [] →
          ∃ old new, values name = .ok (some old) ∧ values' name = .ok (some new) ∧
            (w.Topmost name → ¬ n.Alike old new → ∀ s ∈ n.subscribers, ∃ x, (s, x) ∈ news ∧ n.Alike x new) := by
  obtain ⟨rank, hr⟩ := hacyclic.ranked htracked
  have hsound := hw.sound hr harranges hfresh
  have hcurrent := hw.current hr harranges hfresh hsilent
  obtain ⟨k, hk⟩ := hsound.exists_get hcell.1
  have hkcell := hsound.cell hk hcell.2
  have hwrite := Flow.write_spec (v := v) hr harranges hsound hk hkcell
  refine ⟨fun hf => ?_, fun changed w' hrun => ?_⟩
  · rcases hwrite.cases with ⟨changed, w', hrun, -⟩ | ⟨e, w', -, hfaulty⟩
    · exact ⟨changed, w', hrun⟩
    · exact absurd hf hfaulty
  have hsound' := hwrite.of_ok hrun
  obtain ⟨news, hnews⟩ : ∃ news, w'.told = w.told ++ news := by
    have hgrown := Flow.write_grown cell v w
    rw [hrun] at hgrown
    exact hgrown.told
  refine ⟨news, hnews, fun values values' hvalues hvalues' name n hn hderived hs => ?_⟩
  have hf := hcurrent name n hn hs
  have hminded := (Flow.write_minded hr harranges hsound hk hkcell hn hderived hs hf).of_ok hrun
  obtain ⟨m, hm, hf', htold⟩ := hminded.fresh
  have hold := Finds.eq_recomputed hr hsound hvalues _ name (fun _ => hr.bound name (hsound.isSome hn))
    (.ok (some n.value)) ⟨n, hn, hf, rfl⟩
  have hnew := Finds.eq_recomputed hr hsound' hvalues' _ name (fun _ => hr.bound name (hsound.isSome hn))
    (.ok (some m.value)) ⟨m, hm, hf', rfl⟩
  refine ⟨n.value, m.value, hold, hnew, fun ht hchanged => ?_⟩
  obtain ⟨news', hnews', hall⟩ := (htold ht).resolve_left hchanged
  rwa [List.append_cancel_left (hnews.symm.trans hnews')]

theorem topmost_missed (hl : Like alarm w) : w.Topmost "missed" := by
  intro a m hread
  obtain ⟨b, -, hb⟩ := TransGen.tail'_iff.mp hread
  have hlt : alarmRank "missed" < alarmRank b := alarmRank_lt (hl.mayRead ▸ hb)
  have hle : alarmRank b ≤ alarmRank "missed" := by
    unfold alarmRank
    split <;> [decide; (split <;> decide)]
  omega

theorem alarm_silent (hn : alarm.get name = some n) : n.subscribers = [] := by
  have hsignals : ∀ e ∈ alarm.signals, e.2.subscribers = [] := by simp [alarm]
  exact hsignals (name, n) (Table.mem_of_get? hn)

/-- The alarm when one listens to whether it is missed, before and after it goes off. -/
def listening : Network :=
  ((Access.subscribe "missed" 0).perform.run.run ((Access.read "missed").perform.run.run alarm).2).2

def ringing : Network := ((Access.write "alarm" (.bool true)).perform.run.run listening).2

theorem reached_ringing : alarm.Reached ringing := by
  have hcurrent : (((Access.read "missed").perform.run.run alarm).2.get "missed").map Signal.isStale = some false := by cbv
  have hread : (Access.read "missed").perform.run.run alarm = (.ok (), _) := Prod.ext (by cbv) rfl
  have hsubscribe : (Access.subscribe "missed" 0).perform.run.run ((Access.read "missed").perform.run.run alarm).2 =
      (.ok (), listening) := Prod.ext (by cbv) rfl
  have hwrite : (Access.write "alarm" (.bool true)).perform.run.run listening = (.ok (), ringing) := Prod.ext (by cbv) rfl
  have hreached : alarm.Reached listening := by
    refine .step (.step .start (show (Access.read "missed").Fits alarm by rfl) trivial hread)
      (show (Access.subscribe "missed" 0).Fits alarm by rfl) (fun n hn => ?_) hsubscribe
    rw [hn] at hcurrent
    exact Option.some.inj hcurrent
  exact .step hreached (show (Access.write "alarm" (.bool true)).Fits alarm from ⟨by rfl, by rfl⟩) trivial hwrite

theorem told_of_changed_alarm : ∃ w' news, alarm.Reached ringing ∧
    (Flow.write "speaker" (.bool false)).run.run ringing = (.ok true, w') ∧ w'.told = ringing.told ++ news ∧
    ∃ x, (0, x) ∈ news ∧ (x = .bool true ∨ x.unchanged (.bool true) = true) := by
  set w' := ((Flow.write "speaker" (.bool false)).run.run ringing).2 with hw'
  have hrun : (Flow.write "speaker" (.bool false)).run.run ringing = (.ok true, w') := Prod.ext (by cbv) rfl
  have hold : ((Flow.read "missed").run.run ringing).1 = .ok (.bool false) := by cbv
  have hnew : ((Flow.read "missed").run.run w').1 = .ok (.bool true) := by rw [hw']; cbv
  have hmissed : (ringing.get "missed").map (fun n => (n.derived.isSome, n.audience)) = some (true, [0], false) := by cbv
  have hfits : (Access.write "speaker" (.bool false)).Fits alarm := ⟨by rfl, by rfl⟩
  obtain ⟨n, hn, hmissed⟩ := Option.map_eq_some_iff.mp hmissed
  obtain ⟨hderived, haudience⟩ := Prod.mk.inj hmissed
  have hsubscribers : n.subscribers = [0] := congrArg Prod.fst haudience
  have hstrict : n.strict = false := congrArg Prod.snd haudience
  obtain ⟨rank, hr⟩ := alarm_acyclic.ranked fun _ _ => alarm_tracked
  have hsound : Sound alarm ringing fun _ => False := reached_ringing.sound hr alarm_arranges alarm_fresh
  have hsound' : Sound alarm w' fun _ => False := by
    obtain ⟨k, hk⟩ := hsound.exists_get (show (alarm.get "speaker").isSome = true by rfl)
    exact (Flow.write_spec hr alarm_arranges hsound hk (hsound.cell hk rfl)).of_ok hrun
  obtain ⟨values, hvalues⟩ := exists_recomputes (hsound.like.ranked hr)
  obtain ⟨values', hvalues'⟩ := exists_recomputes (hsound'.like.ranked hr)
  obtain ⟨news, hnews, htold⟩ := (told_of_changed alarm_fresh (fun _ _ => alarm_silent) (fun _ _ => alarm_tracked)
    alarm_acyclic alarm_arranges reached_ringing hfits).2 true w' hrun
  obtain ⟨old, new, h, h', hall⟩ := htold values values' hvalues hvalues' "missed" n hn hderived (by simp [hsubscribers])
  rw [(Flow.read_outcome hr hsound rfl hvalues).1, hold] at h
  rw [(Flow.read_outcome hr hsound' rfl hvalues').1, hnew] at h'
  cases h
  cases h'
  obtain ⟨x, hx, halike⟩ := hall (topmost_missed hsound.like)
    (by rintro (h | h) <;> simp [Signal.counts, hstrict, Value.unchanged] at h) 0 (by simp [hsubscribers])
  refine ⟨w', news, reached_ringing, hrun, hnews, x, hx, ?_⟩
  simpa only [Signal.Alike, Signal.counts, hstrict, Bool.false_eq_true, if_false] using halike

end Network

end FormRules
