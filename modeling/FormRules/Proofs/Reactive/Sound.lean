import FormRules.Proofs.Store.Table
import FormRules.Reactive.Network

/-!
# Sound networks

A network is sound but for some pending signals if every derived signal that is neither stale nor pending holds
what its computation comes to on the values that the signals hold, none of which is stale, and is told when one
of them changes. What is pending has yet to be told of a change.

`Like` says that two states are of one network, `Kept` that nothing that was up to date has changed.
-/

namespace FormRules

namespace Reading
variable {β : Type}

/-- Whether a signal may be read, for some values of what is read before. -/
inductive Reads (s : String) : Reading β → Prop
  | here (tracked : Bool) (next : Option Value → Reading β) : Reads s (.read s tracked next)
  | there (name : String) (tracked : Bool) {next : Option Value → Reading β} (v : Option Value) (h : Reads s (next v)) :
    Reads s (.read name tracked next)

/-- Whether all that is read is tracked. -/
inductive Tracked : Reading β → Prop
  | done (b : β) : Tracked (.done b)
  | read (name : String) {next : Option Value → Reading β} (h : ∀ v, Tracked (next v)) : Tracked (.read name true next)

end Reading

/-- Whether the value of a signal has to be computed anew. -/
def Signal.isStale (n : Signal) : Bool := n.derived.any (·.stale)

namespace Network
variable {w₀ w w' w'' : Network} {pending : String → Prop} {name s a : String} {n m : Signal} {d : Derived}

def get (w : Network) (name : String) : Option Signal := Table.get? w.signals name

/-- The computation of a derived signal. -/
def computation? (w : Network) (name : String) : Option (Reading (Outcome Value)) :=
  (w.get name).bind fun n => n.derived.map (·.compute)

/-- Whether the computation of a signal may read another one. -/
def MayRead (w : Network) (a b : String) : Prop :=
  (w.get b).isSome = true ∧ ∃ r, w.computation? a = some r ∧ r.Reads b

/-- Two states of one network. -/
structure Like (w w' : Network) : Prop where
  names : w'.signals.map (·.1) = w.signals.map (·.1)
  computation : ∀ name, w'.computation? name = w.computation? name
  arrange : w'.arrange = w.arrange

/-- What was up to date still is, and holds the same. -/
def Kept (w w' : Network) : Prop :=
  ∀ s m, w.get s = some m → m.isStale = false → ∃ m', w'.get s = some m' ∧ m'.isStale = false ∧ m'.value = m.value

/-- On the values that the signals hold a computation comes to `v`, and reads nothing but `sources`, none of which
is stale. -/
inductive Settled (w : Network) (sources : List String) (v : Value) : Reading (Outcome Value) → Prop
  | done : Settled w sources v (.done (.ok v))
  | missing {s : String} {tracked : Bool} {next : Option Value → Reading (Outcome Value)} (hs : w.get s = none)
    (h : Settled w sources v (next none)) : Settled w sources v (.read s tracked next)
  | found {s : String} {tracked : Bool} {next : Option Value → Reading (Outcome Value)} {m : Signal}
    (hs : w.get s = some m) (hsource : s ∈ sources) (hfresh : m.isStale = false)
    (h : Settled w sources v (next (some m.value))) : Settled w sources v (.read s tracked next)

/-- On the values that the signals hold a computation faults, be it that of a stale signal that it reads. -/
inductive Fails (w : Network) (e : Fault) : Reading (Outcome Value) → Prop
  | done : Fails w e (.done (.error e))
  | missing {s : String} {tracked : Bool} {next : Option Value → Reading (Outcome Value)} (hs : w.get s = none)
    (h : Fails w e (next none)) : Fails w e (.read s tracked next)
  | found {s : String} {tracked : Bool} {next : Option Value → Reading (Outcome Value)} {m : Signal}
    (hs : w.get s = some m) (hfresh : m.isStale = false) (h : Fails w e (next (some m.value))) :
    Fails w e (.read s tracked next)
  | source {s : String} {tracked : Bool} {next : Option Value → Reading (Outcome Value)} {m : Signal} {d : Derived}
    (hs : w.get s = some m) (hd : m.derived = some d) (hstale : d.stale = true) (h : Fails w e d.compute) :
    Fails w e (.read s tracked next)

/-- A state of `w₀` in which what is neither stale nor pending is up to date. -/
structure Sound (w₀ w : Network) (pending : String → Prop) : Prop where
  like : Like w₀ w
  /-- Observers read what they observe. -/
  observers : ∀ s n o, w.get s = some n → o ∈ n.observers → w₀.MayRead o s
  /-- Sources know who reads them. -/
  sources : ∀ a n d s, w.get a = some n → n.derived = some d → s ∈ d.sources → ∃ m, w.get s = some m ∧ a ∈ m.observers
  settled : ∀ a n d, w.get a = some n → n.derived = some d → d.stale = false → ¬ pending a →
    Settled w d.sources n.value d.compute

/-! ## Names -/

theorem isSome_get_iff (w : Network) (s : String) : (w.get s).isSome = true ↔ s ∈ w.signals.map (·.1) := by
  refine ⟨fun h => ?_, fun h => ?_⟩
  · obtain ⟨n, hn⟩ := Option.isSome_iff_exists.mp h
    exact List.mem_map.mpr ⟨(s, n), Table.mem_of_get? hn, rfl⟩
  · obtain ⟨e, he, rfl⟩ := List.mem_map.mp h
    rw [get, Table.get?, Option.isSome_map, List.find?_isSome]
    exact ⟨e, he, decide_eq_true rfl⟩

theorem computation?_of_get (hn : w.get name = some n) : w.computation? name = n.derived.map (·.compute) := by
  rw [computation?, hn, Option.bind_some]

namespace Like

theorem refl (w : Network) : Like w w := ⟨rfl, fun _ => rfl, rfl⟩

theorem trans (h : Like w w') (h' : Like w' w'') : Like w w'' :=
  ⟨h'.names.trans h.names, fun name => (h'.computation name).trans (h.computation name), h'.arrange.trans h.arrange⟩

theorem between (h : Like w₀ w) (h' : Like w₀ w') : Like w w' where
  names := h'.names.trans h.names.symm
  computation name := (h'.computation name).trans (h.computation name).symm
  arrange := h'.arrange.trans h.arrange.symm

theorem isSome (h : Like w w') (s : String) : (w'.get s).isSome = (w.get s).isSome := by
  refine Bool.eq_iff_iff.mpr ?_
  rw [isSome_get_iff, isSome_get_iff, h.names]

theorem get_none (h : Like w w') (hs : w.get s = none) : w'.get s = none := by
  have hsome := h.isSome s
  rw [hs] at hsome
  exact Option.isNone_iff_eq_none.mp (by simpa using hsome)

theorem length (h : Like w w') : w'.signals.length = w.signals.length := by
  simpa using congrArg List.length h.names

end Like

namespace Kept

theorem refl (w : Network) : Kept w w := fun _ m hm hf => ⟨m, hm, hf, rfl⟩

theorem trans (h : Kept w w') (h' : Kept w' w'') : Kept w w'' := by
  intro s m hm hf
  obtain ⟨m', hm', hf', hv'⟩ := h s m hm hf
  obtain ⟨m'', hm'', hf'', hv''⟩ := h' s m' hm' hf'
  exact ⟨m'', hm'', hf'', hv''.trans hv'⟩

end Kept

/-! ## Computations on the values held -/

/-- A computation comes to the same as long as its sources are kept. -/
theorem Settled.congr {sources : List String} {v : Value} {r : Reading (Outcome Value)} (h : Settled w sources v r)
    (hl : Like w w') (hk : ∀ s ∈ sources, ∀ m, w.get s = some m → m.isStale = false →
      ∃ m', w'.get s = some m' ∧ m'.isStale = false ∧ m'.value = m.value) : Settled w' sources v r := by
  induction h with
  | done => exact .done
  | missing hs _ ih => exact .missing (hl.get_none hs) ih
  | found hs hsource hfresh _ ih =>
    obtain ⟨m', hm', hf', hv⟩ := hk _ hsource _ hs hfresh
    exact .found hm' hsource hf' (hv ▸ ih)

theorem Settled.kept {sources : List String} {v : Value} {r : Reading (Outcome Value)} (h : Settled w sources v r)
    (hl : Like w w') (hk : Kept w w') : Settled w' sources v r :=
  h.congr hl fun s _ => hk s

/-- A computation comes to one value, and does not fault. -/
theorem Settled.unique {ss ts : List String} {u v : Value} {r : Reading (Outcome Value)} (h : Settled w ss u r)
    (h' : Settled w ts v r) : u = v := by
  induction h with
  | done => cases h'; rfl
  | missing hs _ ih =>
    cases h' with
    | missing _ h' => exact ih h'
    | found hs' => cases hs.symm.trans hs'
  | found hs _ _ _ ih =>
    cases h' with
    | missing hs' => cases hs.symm.trans hs'
    | found hs' _ _ h' =>
      cases hs.symm.trans hs'
      exact ih h'

theorem isStale_of_derived (hd : n.derived = some d) : n.isStale = d.stale := by
  rw [Signal.isStale, hd, Option.any_some]

theorem Settled.not_fails {ss : List String} {v : Value} {e : Fault} {r : Reading (Outcome Value)}
    (h : Settled w ss v r) : ¬ Fails w e r := by
  intro h'
  induction h with
  | done => cases h'
  | missing hs _ ih =>
    cases h' with
    | missing _ h' => exact ih h'
    | found hs' => cases hs.symm.trans hs'
    | source hs' => cases hs.symm.trans hs'
  | found hs _ hfresh _ ih =>
    cases h' with
    | missing hs' => cases hs.symm.trans hs'
    | found hs' _ h' =>
      cases hs.symm.trans hs'
      exact ih h'
    | source hs' hd hstale =>
      cases hs.symm.trans hs'
      rw [isStale_of_derived hd, hstale] at hfresh
      cases hfresh

/-- A computation faults as long as values and stale marks are the same. -/
theorem Fails.congr {e : Fault} {r : Reading (Outcome Value)} (h : Fails w e r) (hl : Like w w') (hk : Kept w w')
    (hs : ∀ s m d, w.get s = some m → m.derived = some d → d.stale = true →
      ∃ m' d', w'.get s = some m' ∧ m'.derived = some d' ∧ d'.stale = true ∧ d'.compute = d.compute) : Fails w' e r := by
  induction h with
  | done => exact .done
  | missing hs _ ih => exact .missing (hl.get_none hs) ih
  | found hs hfresh _ ih =>
    obtain ⟨m', hm', hf', hv⟩ := hk _ _ hs hfresh
    exact .found hm' hf' (hv ▸ ih)
  | source hm hd hstale _ ih =>
    obtain ⟨m', d', hm', hd', hstale', hc⟩ := hs _ _ _ hm hd hstale
    exact .source hm' hd' hstale' (hc ▸ ih)

namespace Sound

theorem computation (h : Sound w₀ w pending) (hn : w.get name = some n) (hd : n.derived = some d) :
    w₀.computation? name = some d.compute := by
  rw [← h.like.computation, computation?_of_get hn, hd, Option.map_some]

theorem isSome (h : Sound w₀ w pending) (hn : w.get name = some n) : (w₀.get name).isSome = true := by
  rw [← h.like.isSome, hn, Option.isSome_some]

theorem exists_get (h : Sound w₀ w pending) (hn : (w₀.get name).isSome = true) : ∃ n, w.get name = some n :=
  Option.isSome_iff_exists.mp ((h.like.isSome name).trans hn)

/-- Only the signals and the order in which they are told matter. -/
theorem of_signals (h : Sound w₀ w pending) (hs : w'.signals = w.signals) (ha : w'.arrange = w.arrange) :
    Sound w₀ w' pending := by
  have hget : w'.get = w.get := by
    funext name
    rw [get, get, hs]
  have hlike : Like w w' := ⟨by rw [hs], fun name => by rw [computation?, computation?, hget], ha⟩
  refine ⟨h.like.trans hlike, fun s n o hn => h.observers s n o (hget ▸ hn), fun a n d s hn hd hmem => ?_,
    fun a n d hn hd hf hp => ?_⟩
  · rw [hget] at hn ⊢
    exact h.sources a n d s hn hd hmem
  · rw [hget] at hn
    exact (h.settled a n d hn hd hf hp).kept hlike (by rw [Kept, hget]; exact Kept.refl w)

theorem mono {p q : String → Prop} (h : Sound w₀ w p) (hpq : ∀ a, p a → q a) : Sound w₀ w q :=
  ⟨h.like, h.observers, h.sources, fun a n d ha hd hf hq => h.settled a n d ha hd hf fun hp => hq (hpq a hp)⟩

end Sound

end Network
end FormRules
