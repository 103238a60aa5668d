import FormRules.Proofs.Reactive.Propagation
import Mathlib

/-!
# Consistency of networks

Whatever is read, written and subscribed to, reading a signal of a network without loops gives what one gets by
computing everything anew from the values of the cells.
-/

namespace FormRules

namespace Reading
variable {values values' : String → Outcome (Option Value)}

/-- What a computation comes to when signals have given values or faults; a fault that it meets is its own. -/
def outcome (values : String → Outcome (Option Value)) : Reading (Outcome Value) → Outcome Value
  | .done o => o
  | .read s _ next =>
    match values s with
    | .ok v => outcome values (next v)
    | .error e => .error e

theorem outcome_congr {r : Reading (Outcome Value)} (h : ∀ s, r.Reads s → values s = values' s) :
    r.outcome values = r.outcome values' := by
  induction r with
  | done o => rfl
  | read s tracked next ih =>
    rw [outcome, outcome, ← h s (.here tracked next)]
    cases values s with
    | ok v => exact ih v fun t ht => h t (.there s tracked v ht)
    | error e => rfl

end Reading

namespace Network
open Relation
variable {w₀ w w' : Network} {pending : String → Prop} {rank : String → Nat} {name s a b : String} {n : Signal}
  {d : Derived} {values values' : String → Outcome (Option Value)} {e : Fault} {v : Value} {sources : List String}
  {r : Reading (Outcome Value)}

/-- What a signal comes to, when those that it is computed from come to the given values. -/
def anew (w : Network) (values : String → Outcome (Option Value)) (s : String) : Outcome (Option Value) :=
  match w.get s with
  | none => .ok none
  | some n =>
    match n.derived with
    | none => .ok (some n.value)
    | some d => some <$> d.compute.outcome values

/-- Whether values are what the signals come to when everything is computed anew from the values of the cells. -/
def Recomputes (w : Network) (values : String → Outcome (Option Value)) : Prop := ∀ s, values s = w.anew values s

/-- What a signal comes to when everything that it is computed from is computed anew, up to a depth. -/
def recomputed (w : Network) : Nat → String → Outcome (Option Value)
  | 0, _ => .ok none
  | depth + 1, s => w.anew (w.recomputed depth) s

/-- Whether no signal is computed from itself. -/
def Acyclic (w : Network) : Prop := ∀ a, ¬ TransGen w.MayRead a a

/-- A network nothing of which has been computed yet. -/
structure Fresh (w : Network) : Prop where
  observers : ∀ s n, w.get s = some n → n.observers = []
  derived : ∀ s n d, w.get s = some n → n.derived = some d → d.stale = true ∧ d.sources = []

/-! ## Ranks -/

theorem acyclic_of_rank (rank : String → Nat) (h : ∀ a b, w.MayRead a b → rank b < rank a) : w.Acyclic := by
  intro a ha
  have hlt : ∀ b, TransGen w.MayRead a b → rank b < rank a := fun b hb => by
    induction hb with
    | single hab => exact h _ _ hab
    | tail _ hbc ih => exact (h _ _ hbc).trans ih
  exact Nat.lt_irrefl _ (hlt a ha)

/-- In a network without loops a signal ranks above what it is computed from: it is computed from more. -/
theorem Acyclic.ranked (h : w.Acyclic) (ht : ∀ a r, w.computation? a = some r → r.Tracked) :
    ∃ rank, w.Ranked rank := by
  classical
  let below (a : String) : Finset String := (w.signals.map (·.1)).toFinset.filter (TransGen w.MayRead a)
  refine ⟨fun a => (below a).card, ht, fun a b hab => Finset.card_lt_card ?_, fun a ha => ?_⟩
  · refine Finset.ssubset_iff_of_subset (fun c hc => ?_) |>.mpr ⟨b, ?_, ?_⟩
    · rw [Finset.mem_filter] at hc ⊢
      exact ⟨hc.1, .head hab hc.2⟩
    · rw [Finset.mem_filter, List.mem_toFinset]
      exact ⟨(isSome_get_iff w b).mp hab.1, .single hab⟩
    · rw [Finset.mem_filter]
      exact fun hb => h b hb.2
  · have hlt : below a ⊂ (w.signals.map (·.1)).toFinset := by
      refine Finset.ssubset_iff_of_subset (Finset.filter_subset _ _) |>.mpr ⟨a, ?_, ?_⟩
      · exact List.mem_toFinset.mpr ((isSome_get_iff w a).mp ha)
      · rw [Finset.mem_filter]
        exact fun ha => h a ha.2
    have hcard := (Finset.card_lt_card hlt).trans_le (List.toFinset_card_le _)
    rwa [List.length_map] at hcard

theorem Like.ranked (h : Like w w') (hr : w.Ranked rank) : w'.Ranked rank where
  tracked a r hc := hr.tracked a r (h.computation a ▸ hc)
  lt a b := by
    rintro ⟨hb, r, hc, hreads⟩
    exact hr.lt a b ⟨(h.isSome b).symm.trans hb, r, (h.computation a).symm.trans hc, hreads⟩
  bound a ha := h.length ▸ hr.bound a ((h.isSome a).symm.trans ha)

/-! ## Computing everything anew -/

section
variable {values values' : String → Outcome (Option Value)} {n : Signal} {d : Derived}

theorem anew_of_none (hs : w.get s = none) : w.anew values s = .ok none := by rw [anew, hs]

theorem anew_of_cell (hn : w.get s = some n) (hd : n.derived = none) : w.anew values s = .ok (some n.value) := by
  rw [anew, hn]
  simp only [hd]

theorem anew_of_derived (hn : w.get s = some n) (hd : n.derived = some d) :
    w.anew values s = some <$> d.compute.outcome values := by
  rw [anew, hn]
  simp only [hd]

/-- Only signals of lower rank matter. -/
theorem anew_congr (hr : w.Ranked rank)
    (h : (w.get s).isSome = true → ∀ t, ((w.get t).isSome = true → rank t < rank s) → values t = values' t) :
    w.anew values s = w.anew values' s := by
  cases hn : w.get s with
  | none => rw [anew_of_none hn, anew_of_none hn]
  | some n =>
    cases hd : n.derived with
    | none => rw [anew_of_cell hn hd, anew_of_cell hn hd]
    | some d =>
      have hc : w.computation? s = some d.compute := by rw [computation?_of_get hn, hd, Option.map_some]
      rw [anew_of_derived hn hd, anew_of_derived hn hd, Reading.outcome_congr fun t ht =>
        h (by rw [hn]; rfl) t fun hsome => hr.lt s t ⟨hsome, d.compute, hc, ht⟩]

/-- Values computed anew are determined by the cells. -/
theorem Recomputes.unique (hr : w.Ranked rank) (h : w.Recomputes values) (h' : w.Recomputes values') :
    values = values' := by
  have hagree : ∀ k s, ((w.get s).isSome = true → rank s < k) → values s = values' s := by
    intro k
    induction k with
    | zero =>
      intro s hs
      have hnone : w.get s = none := by simpa using hs
      rw [h s, h' s, anew_of_none hnone, anew_of_none hnone]
    | succ k ih =>
      intro s hs
      rw [h s, h' s]
      exact anew_congr hr fun hsome t ht => ih t fun htsome => by have := hs hsome; have := ht htsome; omega
  exact funext fun s => hagree _ s (hr.bound s)

/-- A depth above the rank of a signal is enough to compute it. -/
theorem recomputed_succ (hr : w.Ranked rank) : ∀ k s, ((w.get s).isSome = true → rank s < k) →
    w.recomputed k s = w.recomputed (k + 1) s := by
  intro k
  induction k with
  | zero => exact fun s hs => (anew_of_none (by simpa using hs)).symm
  | succ k ih =>
    intro s hs
    exact anew_congr hr fun hsome t ht => ih t fun htsome => by have := hs hsome; have := ht htsome; omega

theorem exists_recomputes (hr : w.Ranked rank) : ∃ values, w.Recomputes values :=
  ⟨w.recomputed w.signals.length, fun s => recomputed_succ hr _ s (hr.bound s)⟩

/-- The cells of a network that is kept are the same. -/
theorem Recomputes.kept (h : w.Recomputes values) (hl : Like w w') (hk : Kept w w') : w'.Recomputes values := by
  intro s
  rw [h s]
  have hc := hl.computation s
  cases hn : w.get s with
  | none => rw [anew_of_none hn, anew_of_none (hl.get_none hn)]
  | some n =>
    obtain ⟨n', hn'⟩ := Option.isSome_iff_exists.mp ((hl.isSome s).trans (by rw [hn]; rfl))
    rw [computation?_of_get hn, computation?_of_get hn'] at hc
    cases hd : n.derived with
    | none =>
      obtain ⟨m, hm, -, hvalue⟩ := hk s n hn (by rw [Signal.isStale, hd]; rfl)
      cases hn'.symm.trans hm
      rw [anew_of_cell hn hd, anew_of_cell hn' (by simpa [hd] using hc), hvalue]
    | some d =>
      rw [hd, Option.map_some, Option.map_eq_some_iff] at hc
      obtain ⟨d', hd', hc⟩ := hc
      rw [anew_of_derived hn hd, anew_of_derived hn' hd', hc]

end

/-! ## What reading gives -/

section
variable {values : String → Outcome (Option Value)} {r : Reading (Outcome Value)}

theorem Settled.outcome_eq {sources : List String} {v : Value} (h : Settled w sources v r)
    (hfinds : ∀ s, r.Reads s → ∀ o, Finds w s o → values s = o) : r.outcome values = .ok v := by
  induction h with
  | done => rfl
  | missing hs _ ih =>
    rw [Reading.outcome, hfinds _ (.here _ _) (.ok none) hs]
    exact ih fun t ht => hfinds t (.there _ _ _ ht)
  | @found s _ _ m hs _ hfresh _ ih =>
    rw [Reading.outcome, hfinds s (.here _ _) (.ok (some m.value)) ⟨m, hs, hfresh, rfl⟩]
    exact ih fun t ht => hfinds t (.there _ _ _ ht)

theorem Fails.outcome_eq {e : Fault} (h : Fails w e r)
    (hfinds : ∀ s, r.Reads s → ∀ o, Finds w s o → values s = o) : r.outcome values = .error e := by
  induction h with
  | done => rfl
  | missing hs _ ih =>
    rw [Reading.outcome, hfinds _ (.here _ _) (.ok none) hs]
    exact ih fun t ht => hfinds t (.there _ _ _ ht)
  | @found s _ _ m hs hfresh _ ih =>
    rw [Reading.outcome, hfinds s (.here _ _) (.ok (some m.value)) ⟨m, hs, hfresh, rfl⟩]
    exact ih fun t ht => hfinds t (.there _ _ _ ht)
  | @source s _ _ m d hs hd hstale h _ =>
    rw [Reading.outcome, hfinds s (.here _ _) (.error e) ⟨m, d, hs, hd, hstale, h⟩]

/-- In a sound state reading a signal gives what it comes to when everything is computed anew. -/
theorem Finds.eq_recomputed (hr : w₀.Ranked rank) (h : Sound w₀ w (fun _ => False)) (hv : w.Recomputes values) :
    ∀ k s, ((w.get s).isSome = true → rank s < k) → ∀ o, Finds w s o → values s = o := by
  intro k
  induction k with
  | zero =>
    intro s hs o ho
    have hnone : w.get s = none := by simpa using hs
    rcases o with e | _ | v
    · obtain ⟨m, -, hm, -⟩ := ho
      cases hnone.symm.trans hm
    · rw [hv s, anew_of_none hnone]
    · obtain ⟨m, hm, -⟩ := ho
      cases hnone.symm.trans hm
  | succ k ih =>
    intro s hs o ho
    have hbelow {m d} (hm : w.get s = some m) (hd : m.derived = some d) :
        ∀ t, d.compute.Reads t → ∀ o, Finds w t o → values t = o := fun t ht => ih t fun hsome => by
      have hrank := hs (by rw [hm]; rfl)
      have hlt := hr.lt s t ⟨by rwa [← h.like.isSome], d.compute, h.computation hm hd, ht⟩
      omega
    rcases o with e | _ | v
    · obtain ⟨m, d, hm, hd, -, hfails⟩ := ho
      rw [hv s, anew_of_derived hm hd, hfails.outcome_eq (hbelow hm hd)]
      rfl
    · rw [hv s, anew_of_none ho]
    · obtain ⟨m, hm, hfresh, rfl⟩ := ho
      cases hd : m.derived with
      | none => rw [hv s, anew_of_cell hm hd]
      | some d =>
        have hsettled := h.settled s m d hm hd (isStale_of_derived hd ▸ hfresh) id
        rw [hv s, anew_of_derived hm hd, hsettled.outcome_eq (hbelow hm hd)]
        rfl

end

/-- Nothing is up to date in a fresh network. -/
theorem Fresh.sound (h : w.Fresh) : Sound w w (fun _ => False) where
  like := .refl w
  observers s n o hn ho := by
    rw [h.observers s n hn] at ho
    cases ho
  sources a n d s hn hd hs := by
    rw [(h.derived a n d hn hd).2] at hs
    cases hs
  settled a n d hn hd hf _ := by
    rw [(h.derived a n d hn hd).1] at hf
    cases hf

end Network

/-- What is done to a network from outside. A signal is read outside of all computations, so that it makes no
difference whether the read is tracked. -/
inductive Access
  | read (name : String)
  | write (name : String) (v : Value)
  | subscribe (name : String) (subscriber : Nat)
  | unsubscribe (name : String) (subscriber : Nat)

namespace Access
open Network

def perform : Access → Flow Unit
  | read name => do let _ ← Flow.read name
  | write name v => do let _ ← Flow.write name v
  | subscribe name subscriber => Flow.subscribe name subscriber
  | unsubscribe name subscriber => Flow.unsubscribe name subscriber

/-- Whether there is what is to be read, subscribed to or, in the case of a cell, written. -/
def Fits (w : Network) : Access → Prop
  | read name | subscribe name _ | unsubscribe name _ => (w.get name).isSome = true
  | write name _ => (w.get name).isSome = true ∧ w.computation? name = none

end Access

namespace Flow
open Network
variable {w₀ w : Network} {rank : String → Nat} {name : String} {values : String → Outcome (Option Value)}

/-- Reading a signal in a sound network. -/
theorem read_spec (hr : w₀.Ranked rank) (h : Sound w₀ w (fun _ => False)) (hname : (w₀.get name).isSome = true) :
    Ensures (fun v w' => Sound w₀ w' (fun _ => False) ∧ (w.Recomputes values → values name = .ok (some v)))
      (fun e _ => ¬ w₀.Faultless ∧ (w.Recomputes values → values name = .error e)) (read name) w := by
  obtain ⟨n, hn⟩ := h.exists_get hname
  have heq {w' o} (hw' : Refreshed w₀ (fun _ => False) rank w₀.signals.length w w') (ho : Finds w' name o)
      (hv : w.Recomputes values) : values name = o :=
    Finds.eq_recomputed hr hw'.sound (hv.kept (h.like.between hw'.sound.like) hw'.kept) _ name
      (fun hs => hr.bound name ((hw'.sound.like.isSome name).symm.trans hs)) o ho
  refine Ensures.bind_of (run_signal hn) (Ensures.bind ((readWith_recompute_spec hr h).mono (fun _ _ h => h)
    fun e w' he => ⟨he.2.faulty he.1.sound, heq he.1 he.2⟩) ?_)
  rintro v w' ⟨hw', hfinds⟩
  refine Ensures.pure ⟨hw'.sound, fun hv => (heq hw' hfinds hv).trans ?_⟩
  cases v with
  | none =>
    have hsome := hw'.sound.like.isSome name
    rw [show w'.get name = none from hfinds, hname] at hsome
    cases hsome
  | some v => rfl

/-- What reading a signal in a sound network comes to. -/
theorem read_outcome (hr : w₀.Ranked rank) (h : Sound w₀ w (fun _ => False)) (hname : (w₀.get name).isSome = true)
    (hv : w.Recomputes values) :
    values name = some <$> ((read name).run.run w).1 ∧ (w₀.Faultless → ∃ v, ((read name).run.run w).1 = .ok v) := by
  rcases (read_spec hr h hname).cases with ⟨v, w', hrun, -, hvalue⟩ | ⟨e, w', hrun, hfaulty, hvalue⟩
  · rw [hrun]
    exact ⟨hvalue hv, fun _ => ⟨v, rfl⟩⟩
  · rw [hrun]
    exact ⟨hvalue hv, fun hf => absurd hf hfaulty⟩

/-- Every operation keeps a network sound. -/
theorem perform_spec (hr : w₀.Ranked rank) (ha : w₀.Arranges) (h : Sound w₀ w (fun _ => False)) {op : Access}
    (hop : op.Fits w₀) :
    Ensures (fun _ w' => Sound w₀ w' (fun _ => False)) (fun _ _ => ¬ w₀.Faultless) op.perform w := by
  cases op with
  | read name =>
    have hread := @read_spec w₀ w rank name (fun _ => .ok none) hr h hop
    exact Ensures.bind (hread.mono (fun _ _ h => h) fun _ _ he => he.1)
      fun _ _ hw' => Ensures.pure hw'.1
  | write name v =>
    obtain ⟨n, hn⟩ := h.exists_get hop.1
    have hcell : n.derived = none := by
      have hc := h.like.computation name
      rw [hop.2, computation?_of_get hn] at hc
      simpa using hc
    exact Ensures.bind (write_spec hr ha h hn hcell) fun _ _ hw' => Ensures.pure hw'
  | subscribe name subscriber =>
    obtain ⟨n, hn⟩ := h.exists_get hop
    exact Ensures.bind_of (run_signal hn) (Ensures.of_run run_put (h.put_same hn rfl rfl rfl))
  | unsubscribe name subscriber =>
    obtain ⟨n, hn⟩ := h.exists_get hop
    refine Ensures.of_run run_change ?_
    rw [Network.change, hn]
    exact h.put_same hn rfl rfl rfl

theorem perform_all_spec (hr : w₀.Ranked rank) (ha : w₀.Arranges) {ops : List Access} (hops : ∀ op ∈ ops, op.Fits w₀)
    (h : Sound w₀ w (fun _ => False)) :
    Ensures (fun _ w' => Sound w₀ w' (fun _ => False)) (fun _ _ => ¬ w₀.Faultless) (ops.forM Access.perform) w := by
  induction ops generalizing w with
  | nil => exact Ensures.pure h
  | cons op ops ih =>
    exact Ensures.bind (perform_spec hr ha h (hops op List.mem_cons_self)) fun _ w' hw' =>
      ih (fun op' hop' => hops op' (List.mem_cons_of_mem op hop')) hw'

end Flow

/-- After any operations reading a signal gives what everything comes to when it is computed anew from the values of
the cells. If no computation can fault, nothing does. -/
theorem Network.read_eq_recomputed {w₀ : Network} (hfresh : w₀.Fresh)
    (htracked : ∀ a r, w₀.computation? a = some r → r.Tracked) (hacyclic : w₀.Acyclic) (harranges : w₀.Arranges)
    {ops : List Access} (hops : ∀ op ∈ ops, op.Fits w₀) :
    (w₀.Faultless → ∃ w, (ops.forM Access.perform).run.run w₀ = (.ok (), w) ∧
      ∀ name, (w₀.get name).isSome = true → ∃ v, ((Flow.read name).run.run w).1 = .ok v) ∧
    ∀ w, (ops.forM Access.perform).run.run w₀ = (.ok (), w) →
      ∃ values, (∀ values', w.Recomputes values' ↔ values' = values) ∧
        ∀ name, (w₀.get name).isSome = true → values name = some <$> ((Flow.read name).run.run w).1 := by
  obtain ⟨rank, hr⟩ := hacyclic.ranked htracked
  have hread {w} (hw : Sound w₀ w (fun _ => False)) : ∃ values, w.Recomputes values ∧
      ∀ name, (w₀.get name).isSome = true → values name = some <$> ((Flow.read name).run.run w).1 ∧
        (w₀.Faultless → ∃ v, ((Flow.read name).run.run w).1 = .ok v) := by
    obtain ⟨values, hv⟩ := exists_recomputes (hw.like.ranked hr)
    exact ⟨values, hv, fun name hname => Flow.read_outcome hr hw hname hv⟩
  rcases (Flow.perform_all_spec hr harranges hops hfresh.sound).cases with ⟨_, w, hrun, hw⟩ | ⟨e, w, hrun, hfaulty⟩
  · obtain ⟨values, hv, hread⟩ := hread hw
    refine ⟨fun hf => ⟨w, hrun, fun name hname => (hread name hname).2 hf⟩, fun w' hrun' => ?_⟩
    cases hrun.symm.trans hrun'
    refine ⟨values, fun values' => ⟨fun hv' => hv'.unique (hw.like.ranked hr) hv, ?_⟩, fun name hname =>
      (hread name hname).1⟩
    rintro rfl
    exact hv
  · refine ⟨fun hf => absurd hf hfaulty, fun w' hrun' => ?_⟩
    cases hrun.symm.trans hrun'

namespace Reading

/-- Whether an alarm is heard: only while the speaker is on. -/
def heard : Reading (Outcome Value) :=
  .read "speaker" true fun
    | some (.bool true) => .read "alarm" true fun alarm => .done (.ok (alarm.getD .null))
    | _ => .done (.ok (.bool false))

/-- Whether there is an alarm that is not heard. -/
def missed : Reading (Outcome Value) :=
  .read "alarm" true fun alarm => .read "heard" true fun heard =>
    match alarm, heard with
    | some (.bool a), some (.bool h) => .done (.ok (.bool (a && !h)))
    | _, _ => .done (.ok .null)

end Reading

/-- An alarm with a speaker. Observers are told first to last and last to first in turns, and subscribers compute
whether it is heard. -/
def Network.alarm : Network where
  signals := [("speaker", { value := .bool true }), ("alarm", { value := .bool false }),
    ("heard", { derived := some { compute := Reading.heard } }),
    ("missed", { derived := some { compute := Reading.missed } })]
  arrange turn observers := if turn % 2 = 0 then observers else observers.reverse
  hear _ _ := Reading.heard

namespace Network
variable {a b : String} {r : Reading (Outcome Value)}

theorem alarm_computation (h : alarm.computation? a = some r) :
    a = "heard" ∧ r = Reading.heard ∨ a = "missed" ∧ r = Reading.missed := by
  obtain ⟨n, hn, hr⟩ := Option.bind_eq_some_iff.mp h
  have hmem : (a, n) ∈ alarm.signals := Table.mem_of_get? hn
  simp only [alarm, List.mem_cons, Prod.mk.injEq, List.not_mem_nil, or_false] at hmem
  rcases hmem with ⟨rfl, rfl⟩ | ⟨rfl, rfl⟩ | ⟨rfl, rfl⟩ | ⟨rfl, rfl⟩ <;> simp_all

theorem alarm_fresh : alarm.Fresh := by
  have hsignals : ∀ e ∈ alarm.signals, e.2.observers = [] ∧
      ∀ d, e.2.derived = some d → d.stale = true ∧ d.sources = [] := by
    simp [alarm]
  exact ⟨fun s n hn => (hsignals (s, n) (Table.mem_of_get? hn)).1,
    fun s n d hn => (hsignals (s, n) (Table.mem_of_get? hn)).2 d⟩

theorem alarm_tracked (h : alarm.computation? a = some r) : r.Tracked := by
  rcases alarm_computation h with ⟨-, rfl⟩ | ⟨-, rfl⟩
  · refine .read _ fun v => ?_
    split
    · exact .read _ fun _ => .done _
    · exact .done _
  · refine .read _ fun u => .read _ fun v => ?_
    split <;> exact .done _

theorem alarm_faultless : alarm.Faultless := by
  intro a r h
  rcases alarm_computation h with ⟨-, rfl⟩ | ⟨-, rfl⟩
  · refine .read _ _ fun v => ?_
    split
    · exact .read _ _ fun _ => .done _
    · exact .done _
  · refine .read _ _ fun u => .read _ _ fun v => ?_
    split <;> exact .done _

/-- How far a signal of the alarm is from the cells. -/
def alarmRank (a : String) : Nat := if a = "missed" then 2 else if a = "heard" then 1 else 0

theorem alarmRank_lt (h : alarm.MayRead a b) : alarmRank b < alarmRank a := by
  obtain ⟨-, r, hr, hreads⟩ := h
  rcases alarm_computation hr with ⟨rfl, rfl⟩ | ⟨rfl, rfl⟩
  · cases hreads with
    | here => decide
    | there _ _ _ h =>
      dsimp only at h
      split at h
      · cases h with
        | here => decide
        | there _ _ _ h => cases h
      · cases h
  · cases hreads with
    | here => decide
    | there _ _ _ h =>
      cases h with
      | here => decide
      | there _ _ _ h =>
        dsimp only at h
        split at h <;> cases h

theorem alarm_acyclic : alarm.Acyclic := acyclic_of_rank alarmRank fun _ _ => alarmRank_lt

theorem alarm_arranges : alarm.Arranges := by
  intro turn observers
  simp only [alarm]
  split
  · exact .refl _
  · exact List.reverse_perm _

theorem read_eq_recomputed_alarm :
    ∃ w, (List.forM [Access.read "missed", .subscribe "missed" 0, .write "alarm" (.bool true),
      .write "speaker" (.bool false)] Access.perform).run.run alarm = (.ok (), w) ∧
      ∃ values, (∀ values', w.Recomputes values' ↔ values' = values) ∧ values "missed" = .ok (some (.bool true)) := by
  have hmain := read_eq_recomputed alarm_fresh (fun _ _ => alarm_tracked) alarm_acyclic alarm_arranges
    (show ∀ op ∈ [Access.read "missed", .subscribe "missed" 0, .write "alarm" (.bool true),
      .write "speaker" (.bool false)], op.Fits alarm by simp [Access.Fits]; decide)
  obtain ⟨w, hw, -⟩ := hmain.1 alarm_faultless
  obtain ⟨values, hvalues, hread⟩ := hmain.2 w hw
  refine ⟨w, hw, values, hvalues, (hread "missed" rfl).trans ?_⟩
  obtain rfl : _ = w := congrArg Prod.snd hw
  cbv

end Network

end FormRules
