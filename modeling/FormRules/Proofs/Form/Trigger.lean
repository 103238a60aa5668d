import FormRules.Proofs.Form.Inward
import FormRules.Proofs.Form.Rejection

/-!
# What derivations are triggered with

A commit triggers the derivations that it affects with the value that it came to itself, after subscribers have been told
of that value and have answered it. An answer that is taken makes this an older value. A value that counts as unchanged
is dropped, but triggers all the same.
-/

namespace FormRules

/-- Between two states of a derivation it is not triggered, or the last time with a value of a kind. -/
structure Stream.Refired (P : Value → Prop) (s t : Stream) : Prop where
  derivation : t.derivation = s.derivation
  reads : t.reads = s.reads
  trigger : t.fired = s.fired ∧ t.lane.source = s.lane.source ∨
    s.fired < t.fired ∧ ∃ v, t.lane.source = some ⟨t.fired, v⟩ ∧ P v

/-- The value that the derivation was last triggered with. -/
def Stream.carries (s : Stream) (v : Value) : Prop := s.lane.source = some ⟨s.fired, v⟩

namespace Stream.Refired
variable {P Q : Value → Prop} {s t r : Stream} {v : Value}

theorem refl (s : Stream) : Refired P s s := ⟨rfl, rfl, .inl ⟨rfl, rfl⟩⟩

theorem trans (h : Refired P s t) (h' : Refired P t r) : Refired P s r := by
  refine ⟨h'.derivation.trans h.derivation, h'.reads.trans h.reads, ?_⟩
  rcases h'.trigger with ⟨hf, hs⟩ | ⟨hf, v, hs, hv⟩
  · rw [hf, hs]
    exact h.trigger
  · refine .inr ⟨?_, v, hs, hv⟩
    rcases h.trigger with ⟨hg, -⟩ | ⟨hg, -⟩ <;> omega

theorem mono (hP : ∀ v, P v → Q v) (h : Refired P s t) : Refired Q s t :=
  ⟨h.derivation, h.reads, h.trigger.imp id fun ⟨hf, v, hs, hv⟩ => ⟨hf, v, hs, hP v hv⟩⟩

theorem isAffected (h : Refired P s t) : t.isAffected = s.isAffected := by
  funext previous current
  rw [Stream.isAffected, Stream.isAffected, h.derivation, h.reads]

/-- What a derivation carries it goes on to carry, if it is triggered with the same value only. -/
theorem carries (h : Refired (· = v) s t) (hs : s.carries v) : t.carries v := by
  rcases h.trigger with ⟨hf, hl⟩ | ⟨-, w, hl, rfl⟩
  · rw [Stream.carries, hf, hl]
    exact hs
  · exact hl

theorem triggered (s : Stream) (hv : P v) (timer : Option Nat) : Refired P s (s.trigger v timer) :=
  ⟨rfl, rfl, .inr ⟨Nat.lt_succ_self _, v, rfl, hv⟩⟩

theorem settle (s : Stream) : Refired P s s.settle.1 := by
  have hsource : ∀ r, s.lane.settle Stream.sameTrigger = r → r.1.source = s.lane.source := by
    rintro r rfl
    unfold Debounced.settle
    split <;> rfl
  unfold Stream.settle
  split
  · next h => exact ⟨rfl, rfl, .inl ⟨rfl, hsource _ h⟩⟩
  · next h => exact ⟨rfl, rfl, .inl ⟨rfl, hsource _ h⟩⟩

theorem finish (s : Stream) (job : Nat) : Refired P s (s.finish job).1 := ⟨rfl, rfl, .inl ⟨rfl, rfl⟩⟩

end Stream.Refired

/-- Derivations are triggered with values of a kind only, and none comes or goes. -/
structure Refires (P : Value → Prop) (f g : Form) : Prop where
  length : g.streams.length = f.streams.length
  streams : ∀ (n : Nat) (s : Stream), f.streams[n]? = some s → ∃ t, g.streams[n]? = some t ∧ s.Refired P t

namespace Refires
variable {P Q : Value → Prop} {f g h : Form} {n : Nat} {s t : Stream}

theorem of_eq (h : g.streams = f.streams) : Refires P f g := ⟨by rw [h], fun n s hs => ⟨s, h ▸ hs, .refl s⟩⟩

theorem trans (hfg : Refires P f g) (hgh : Refires P g h) : Refires P f h := by
  refine ⟨hgh.length.trans hfg.length, fun n s hs => ?_⟩
  obtain ⟨t, ht, hst⟩ := hfg.streams n s hs
  obtain ⟨r, hr, htr⟩ := hgh.streams n t ht
  exact ⟨r, hr, hst.trans htr⟩

theorem mono (hP : ∀ v, P v → Q v) (hfg : Refires P f g) : Refires Q f g := by
  refine ⟨hfg.length, fun n s hs => ?_⟩
  obtain ⟨t, ht, hst⟩ := hfg.streams n s hs
  exact ⟨t, ht, hst.mono hP⟩

theorem of_set (hs : f.streams[n]? = some s) (hg : g.streams = f.streams.set n t) (h : s.Refired P t) :
    Refires P f g := by
  refine ⟨by rw [hg, List.length_set], fun i r hr => ?_⟩
  rw [hg]
  by_cases hi : n = i
  · subst hi
    obtain rfl : s = r := Option.some.inj (hs.symm.trans hr)
    exact ⟨t, by rw [List.getElem?_set_self (List.getElem?_eq_some_iff.mp hs).1], h⟩
  · exact ⟨r, by rwa [List.getElem?_set_ne hi], .refl r⟩

end Refires

namespace Live
open Relation
variable {P : Value → Prop} {f : Form} {n : Nat} {s : Stream} {v w : Value} {α : Type} {x : Live α}

theorem FollowsFrom.refires (h : FollowsFrom (Refires P) f x) : Refires P f (after x f) :=
  h.keeps (P := fun g => Refires P f g) (fun _ _ hm hg => hg.trans hm) (.of_eq rfl)

theorem Follows.refires (h : Follows Inward x) : Follows (Refires P) x := h.mono fun _ _ h => .of_eq h.streams

/-! ## Triggering -/

theorem putStream_refires {t : Stream} (hs : f.streams[n]? = some s) (h : s.Refired P t) :
    FollowsFrom (Refires P) f (putStream n t) := .single (.of_set hs rfl h)

theorem streamEnded_refires (n job : Nat) : Follows (Refires P) (streamEnded n job) := by
  refine .get_bind fun f => ?_
  cases hs : f.streams[n]? with
  | none => exact .of_eq rfl
  | some s => exact (putStream_refires hs (.finish s job)).bind fun _ _ => .pure (s.finish job).2

theorem streamQuiet_refires (n : Nat) : Follows (Refires P) (streamQuiet n) := by
  refine .get_bind fun f => ?_
  cases hs : f.streams[n]? with
  | none => exact .of_eq rfl
  | some s =>
    refine (putStream_refires hs (.settle s)).bind fun _ _ => ?_
    split
    · refine .get_bind ?_
      split
      · exact (schedule_inward _ _).refires.bind (fun _ => .pure ()) _
      · refine Follows.tryCatch ((streamEnded_refires n _).bind fun b => ?_) (fun _ => (report_inward rfl).refires) _
        split
        · exact (report_inward rfl).refires
        · exact .pure ()
    · exact .of_eq rfl

/-- What follows once a derivation has been triggered triggers nothing else. -/
theorem fire_cases (hs : f.streams[n]? = some s) (v : Value) : ∃ (g : Form) (timer : Option Nat) (y : Live Unit),
    g.streams = f.streams.set n (s.trigger v timer) ∧ Follows (Refires (· = v)) y ∧ after (fire n v) f = after y g := by
  unfold fire
  rw [after_get_bind, hs]
  dsimp only
  rw [after_cancel_bind]
  have hstreams := f.withoutTimer_streams s.lane.timer
  split
  · refine ⟨_, some (f.withoutTimer s.lane.timer).schedule.issued, Pure.pure (), ?_, .pure (), rfl⟩
    rw [← hstreams]
  · refine ⟨_, none, guarded (streamQuiet n), ?_, ?_, rfl⟩
    · rw [← hstreams]
    · exact Follows.tryCatch (streamQuiet_refires n) fun _ => (report_inward rfl).refires

theorem fire_refires (n : Nat) (v : Value) : Follows (Refires (· = v)) (fire n v) := by
  intro f
  cases hs : f.streams[n]? with
  | none =>
    refine .of_eq ?_
    unfold fire
    rw [after_get_bind, hs]
    rfl
  | some s =>
    obtain ⟨g, timer, y, hg, hy, hafter⟩ := fire_cases hs v
    have hset : Refires (· = v) f g := .of_set hs hg (.triggered (P := (· = v)) s rfl timer)
    refine .single ?_
    rw [hafter]
    exact hset.trans (FollowsFrom.refires (hy g))

/-- A derivation that is triggered carries the value. -/
theorem carries_of_fire (hs : f.streams[n]? = some s) (v : Value) :
    ∃ t, (after (fire n v) f).streams[n]? = some t ∧ t.carries v := by
  obtain ⟨g, timer, y, hg, hy, hafter⟩ := fire_cases hs v
  have hn : g.streams[n]? = some (s.trigger v timer) := by
    rw [hg, List.getElem?_set_self (List.getElem?_eq_some_iff.mp hs).1]
  obtain ⟨t, ht, hst⟩ := (FollowsFrom.refires (hy g)).streams n _ hn
  exact ⟨t, hafter ▸ ht, hst.carries rfl⟩

/-- Triggering a derivation if a change affects it. -/
def notifyStream (previous current : Value) (n : Nat) : Live Unit := do
  let some s := (← get).streams[n]? | return
  if ← ofOutcome (s.isAffected previous current) then fire n current

theorem notifyStream_refires (previous current : Value) (n : Nat) :
    Follows (Refires (· = current)) (notifyStream previous current n) := by
  refine .get_bind fun f => ?_
  cases f.streams[n]? with
  | none => exact .of_eq rfl
  | some s =>
    refine .bind (.of_eq rfl) fun b _ => ?_
    split
    · exact fire_refires n current _
    · exact .of_eq rfl

theorem notifyStreams_eq (previous current : Value) : notifyStreams previous current =
    (get >>= fun f => (List.range f.streams.length).forM (notifyStream previous current) : Live Unit) := by
  have loop (l : List Nat) (y : Nat → PUnit → Live (ForInStep PUnit))
      (hy : ∀ n u, y n u = notifyStream previous current n >>= fun _ => pure (.yield ⟨⟩)) :
      (ForIn.forIn l ⟨⟩ y >>= fun _ => pure ⟨⟩ : Live Unit) = l.forM (notifyStream previous current) := by
    induction l with
    | nil => rfl
    | cons n l ih =>
      rw [List.forIn_cons, hy]
      simp only [bind_assoc, pure_bind]
      rw [ih]
      rfl
  unfold notifyStreams
  refine congrArg (get >>= ·) (funext fun f => ?_)
  refine loop _ _ fun n u => ?_
  unfold notifyStream
  rw [bind_assoc]
  refine congrArg (get >>= ·) (funext fun g => ?_)
  cases g.streams[n]? with
  | none => rfl
  | some s =>
    dsimp only
    rw [bind_assoc]
    refine congrArg (ofOutcome _ >>= ·) (funext fun b => ?_)
    cases b <;> rfl

theorem notifyAll_refires (previous current : Value) (l : List Nat) :
    Follows (Refires (· = current)) (l.forM (notifyStream previous current)) :=
  .forM fun n _ => notifyStream_refires previous current n

theorem notifyStreams_refires (previous current : Value) :
    Follows (Refires (· = current)) (notifyStreams previous current) := by
  rw [notifyStreams_eq]
  exact .get_bind fun f => notifyAll_refires previous current _ f

/-- Once all derivations have been asked, those that the change affects carry the new value. -/
theorem carries_of_notifyAll {previous current : Value} {l : List Nat}
    (h : result (l.forM (notifyStream previous current)) f = .ok ⟨⟩) (hn : n ∈ l) (hs : f.streams[n]? = some s)
    (ha : s.isAffected previous current = .ok true) :
    ∃ t, (after (l.forM (notifyStream previous current)) f).streams[n]? = some t ∧ t.carries current := by
  induction l generalizing f s with
  | nil => cases hn
  | cons m l ih =>
    obtain ⟨_, hm, hl, hafter⟩ := of_result_bind (x := notifyStream previous current m) h
    rw [show after ((m :: l).forM (notifyStream previous current)) f = _ from hafter]
    by_cases he : n = m
    · subst he
      obtain ⟨t, ht, hc⟩ : ∃ t, (after (notifyStream previous current n) f).streams[n]? = some t ∧ t.carries current := by
        unfold notifyStream
        rw [after_get_bind, hs]
        dsimp only
        rw [after_bind_ok (show result (ofOutcome (s.isAffected previous current)) f = .ok true from ha), if_pos rfl]
        exact carries_of_fire hs current
      obtain ⟨r, hr, htr⟩ := (FollowsFrom.refires (notifyAll_refires previous current l _)).streams n t ht
      exact ⟨r, hr, htr.carries hc⟩
    · obtain ⟨t, ht, hst⟩ := (FollowsFrom.refires (notifyStream_refires previous current m f)).streams n s hs
      exact ih hl ((List.mem_cons.mp hn).resolve_left he) ht (by rw [hst.isAffected, ha])

theorem carries_of_notifyStreams {previous current : Value} (h : result (notifyStreams previous current) f = .ok ⟨⟩)
    (hs : f.streams[n]? = some s) (ha : s.isAffected previous current = .ok true) :
    ∃ t, (after (notifyStreams previous current) f).streams[n]? = some t ∧ t.carries current := by
  rw [notifyStreams_eq] at h ⊢
  exact carries_of_notifyAll h (List.mem_range.mpr (List.getElem?_eq_some_iff.mp hs).1) hs ha

/-! ## Commits -/

/-- What a commit does to the version of the value and to derivations: unless something has been written, the value stays,
and derivations are triggered with what counts as the same value only. -/
structure Heard (f g : Form) : Prop where
  version : f.version ≤ g.version
  refires : Refires (fun _ => True) f g
  same : g.version = f.version → g.value = f.value ∧ Refires (fun v => f.value.unchanged v = true) f g

theorem Heard.trans {g h : Form} (hfg : Heard f g) (hgh : Heard g h) : Heard f h := by
  refine ⟨hfg.version.trans hgh.version, hfg.refires.trans hgh.refires, fun hv => ?_⟩
  have hgv : g.version = f.version := Nat.le_antisymm (hv ▸ hgh.version) hfg.version
  obtain ⟨hvalue, hrefires⟩ := hfg.same hgv
  obtain ⟨hvalue', hrefires'⟩ := hgh.same (hv.trans hgv.symm)
  rw [hvalue] at hvalue' hrefires'
  exact ⟨hvalue', hrefires.trans hrefires'⟩

theorem Heard.of_inward {g : Form} (h : Inward f g) : Heard f g := by
  obtain ⟨hvalue, hversion, -, -⟩ := Form.of_lasting h.lasting
  exact ⟨hversion.ge, .of_eq h.streams, fun _ => ⟨hvalue, .of_eq h.streams⟩⟩

theorem FollowsFrom.heard (h : FollowsFrom Heard f x) : Heard f (after x f) :=
  h.keeps (P := fun g => Heard f g) (fun _ _ hm hg => hg.trans hm) (.of_inward ⟨rfl, rfl, rfl⟩)

/-- A value is dropped, or it is written and everybody is told. -/
theorem writeValue_cases (react : Update → Live Unit) (wroteNaN : Bool) (v : Value) (f : Form) :
    ((!wroteNaN && f.value.unchanged v) = true ∧ after (writeValue react wroteNaN v) f = f) ∨
    ((!wroteNaN && f.value.unchanged v) = false ∧ after (writeValue react wroteNaN v) f = after (do
      notify .value
      for s in f.subscribers do
        guarded do
          tell s.tag v
          (s.react v).forM react : Live Unit) { f with value := v, version := f.version + 1 }) := by
  unfold writeValue
  rw [after_get_bind]
  cases !wroteNaN && f.value.unchanged v with
  | true => exact .inl ⟨rfl, rfl⟩
  | false => exact .inr ⟨rfl, rfl⟩

theorem derive_streams (v : Value) (f : Form) : (after (derive v) f).streams = f.streams := rfl

theorem writeValue_refires {react : Update → Live Unit} (hr : ∀ u, Follows Heard (react u)) (wroteNaN : Bool) (v : Value)
    (f : Form) : Refires (fun _ => True) f (after (writeValue react wroteNaN v) f) := by
  obtain ⟨-, hafter⟩ | ⟨-, hafter⟩ := writeValue_cases react wroteNaN v f
  · exact .of_eq (by rw [hafter])
  · rw [hafter]
    refine Refires.trans (.of_eq (g := { f with value := v, version := f.version + 1 }) rfl) ?_
    refine FollowsFrom.refires (telling_follows ?_ ?_ ?_ (fun s _ u _ => (hr u).mono fun _ _ h => h.refires) _)
    · exact (notify_inward _).refires
    · exact fun _ _ => (tell_inward _ _).refires
    · exact (report_inward rfl).refires

/-- A commit writes what has been derived, and then triggers derivations with that only. -/
theorem commitWithin_cases (fuel : Nat) (wroteNaN : Bool) {r : DerivationRun} (hd : result (derive v) f = .ok r) :
    Refires (· = r.value) (after (writeValue (reactWithin fuel) (wroteNaN || r.wroteNaN) r.value) (after (derive v) f))
      (after (commitWithin fuel wroteNaN v) f) := by
  rw [commitWithin_eq, after_get_bind, after_bind_ok hd]
  cases hw : result (writeValue (reactWithin fuel) (wroteNaN || r.wroteNaN) r.value) (after (derive v) f) with
  | error e =>
    rw [after_bind_error hw]
    exact .of_eq rfl
  | ok u =>
    rw [after_bind_ok hw]
    exact FollowsFrom.refires ((notifyStreams_refires f.value r.value).bind (fun _ => .pure r) _)

theorem commitWithin_heard_of {fuel : Nat} (hr : ∀ u, Follows Heard (reactWithin fuel u)) (wroteNaN : Bool) (v : Value) :
    Follows Heard (commitWithin fuel wroteNaN v) := by
  intro f
  refine .single ?_
  cases hd : result (derive v) f with
  | error e =>
    rw [(commitWithin_of_derive_error hd).2]
    exact ⟨Nat.le_refl _, .of_eq rfl, fun _ => ⟨rfl, .of_eq rfl⟩⟩
  | ok r =>
    have hcases := commitWithin_cases fuel wroteNaN hd
    cases hc : !(wroteNaN || r.wroteNaN) && f.value.unchanged r.value with
    | true =>
      -- the value is dropped, but derivations are told of it
      have hlasting : (after (commitWithin fuel wroteNaN v) f).lasting = f.lasting := lasting_commitWithin hd hc
      obtain ⟨hvalue, hversion, -, -⟩ := Form.of_lasting hlasting
      have hunchanged : f.value.unchanged r.value = true := (Bool.and_eq_true_iff.mp hc).2
      have hrefires : Refires (fun v => f.value.unchanged v = true) f (after (commitWithin fuel wroteNaN v) f) := by
        refine Refires.trans (.of_eq ?_) (hcases.mono fun w hw => by rw [hw, hunchanged])
        obtain ⟨-, hafter⟩ | ⟨hfalse, -⟩ :=
          writeValue_cases (reactWithin fuel) (wroteNaN || r.wroteNaN) r.value (after (derive v) f)
        · rw [hafter, derive_streams]
        · exact absurd (hc.symm.trans hfalse) nofun
      exact ⟨hversion.ge, hrefires.mono fun _ _ => trivial, fun _ => ⟨hvalue, hrefires⟩⟩
    | false =>
      have hversion : f.version < (after (commitWithin fuel wroteNaN v) f).version := version_commitWithin hd hc
      refine ⟨hversion.le, ?_, fun h => absurd h hversion.ne'⟩
      refine Refires.trans (.of_eq (g := after (derive v) f) rfl) ?_
      exact (writeValue_refires hr _ _ _).trans (hcases.mono fun _ _ => trivial)

theorem reactWithin_heard (fuel : Nat) (u : Update) : Follows Heard (reactWithin fuel u) := by
  induction fuel generalizing u with
  | zero => exact .pure ()
  | succ fuel ih =>
    refine .get_bind fun g => .bind (.of_eq rfl) fun w _ => ?_
    exact (commitWithin_heard_of ih _ w).bind (fun _ => .pure ()) _

/-- What a write that is taken does to derivations before they are told of it themselves. -/
theorem heard_of_writeValue (fuel : Nat) {wroteNaN : Bool} (hc : (!wroteNaN && f.value.unchanged v) = false) :
    let g := after (writeValue (reactWithin fuel) wroteNaN v) f
    Heard { f with value := v, version := f.version + 1 } g ∧
      ((∀ a ∈ f.subscribers, a.react v = []) → Inward { f with value := v, version := f.version + 1 } g) := by
  obtain ⟨htrue, -⟩ | ⟨-, hafter⟩ := writeValue_cases (reactWithin fuel) wroteNaN v f
  · exact absurd (htrue.symm.trans hc) nofun
  dsimp only
  rw [hafter]
  constructor
  · refine FollowsFrom.heard (telling_follows ?_ ?_ ?_ (fun _ _ u _ => reactWithin_heard fuel u) _)
    · exact (notify_inward _).mono fun _ _ => .of_inward
    · exact fun _ _ => (tell_inward _ _).mono fun _ _ => .of_inward
    · exact (report_inward rfl).mono fun _ _ => .of_inward
  · intro hnone
    refine FollowsFrom.inward (telling_follows (notify_inward _) (fun _ _ => tell_inward _ _) (report_inward rfl) ?_ _)
    intro a ha u hu
    rw [hnone a ha] at hu
    cases hu

/-- What an answer of a subscriber triggers a derivation with counts as the value of the form, unless some answer has been
taken. -/
theorem carries_of_writeValue (fuel : Nat) {wroteNaN : Bool} {q : Stream} (hc : (!wroteNaN && f.value.unchanged v) = false)
    (hs : f.streams[n]? = some s) (hq : (after (writeValue (reactWithin fuel) wroteNaN v) f).streams[n]? = some q)
    (hfired : s.fired < q.fired) :
    let g := after (writeValue (reactWithin fuel) wroteNaN v) f
    ∃ w, q.carries w ∧ (g.version ≤ f.version + 1 → g.value.unchanged w = true) ∧
      ¬∀ a ∈ f.subscribers, a.react v = [] := by
  obtain ⟨hheard, hinward⟩ := heard_of_writeValue fuel hc
  dsimp only
  generalize after (writeValue (reactWithin fuel) wroteNaN v) f = g at hq hheard hinward ⊢
  obtain ⟨p, hp, hsp⟩ := hheard.refires.streams n s hs
  obtain rfl : p = q := Option.some.inj (hp.symm.trans hq)
  obtain ⟨hcount, -⟩ | ⟨-, w, hw, -⟩ := hsp.trigger
  · omega
  refine ⟨w, hw, fun hle => ?_, fun hnone => ?_⟩
  · obtain ⟨hvalue, hrefires⟩ := hheard.same (Nat.le_antisymm hle hheard.version)
    obtain ⟨p', hp', hsp'⟩ := hrefires.streams n s hs
    obtain rfl : p' = p := Option.some.inj (hp'.symm.trans hp)
    obtain ⟨hcount, -⟩ | ⟨-, w', hw', hunchanged⟩ := hsp'.trigger
    · omega
    obtain rfl : w = w' := (Trigger.mk.inj (Option.some.inj (hw.symm.trans hw'))).2
    rw [hvalue]
    exact hunchanged
  · have hstreams : g.streams = f.streams := (hinward hnone).streams
    rw [hstreams] at hp
    obtain rfl : s = p := Option.some.inj (hs.symm.trans hp)
    omega

/-- An update that is made commits what it comes to. -/
theorem of_update {u : Update} {r : DerivationRun} (h : result (update u) f = .ok r) :
    ∃ w, result (derive w) f = .ok r ∧ ∃ g, g = after (writeValue (reactWithin reactionDepth)
      (u.writesNaN || r.wroteNaN) r.value) (after (derive w) f) ∧
      result (notifyStreams f.value r.value) g = .ok ⟨⟩ ∧
      after (update u) f = after (notifyStreams f.value r.value) g := by
  obtain ⟨_, hf, h, hafter⟩ := of_result_bind h
  cases hf
  obtain ⟨w, -, h, hafter'⟩ := of_result_bind h
  rw [commit, commitWithin_eq] at h hafter'
  obtain ⟨_, hf, h, hcommit⟩ := of_result_bind h
  cases hf
  obtain ⟨s, hd, h, hderive⟩ := of_result_bind h
  obtain ⟨_, -, h, hwrite⟩ := of_result_bind h
  obtain ⟨⟨⟩, hn, h, hnotify⟩ := of_result_bind h
  cases h
  refine ⟨w, hd, _, rfl, hn, ?_⟩
  exact hafter.trans (hafter'.trans (hcommit.trans (hderive.trans (hwrite.trans hnotify))))

end Live

namespace Form
open Live
variable {f : Form} {u : Update} {r : DerivationRun} {n : Nat} {s : Stream}

/-- When an update returns, a derivation that it affects carries the value that the update came to, whatever subscribers
have answered in the meantime. Every derivation that has been triggered carries some value; if no answer of a subscriber
has been taken, then it is the value of the form, or one that counts as unchanged. It is the value of the form if the
update has been taken and no subscriber answers. -/
theorem carries_of_update (h : result (update u) f = .ok r) (hs : f.streams[n]? = some s) :
    let g := after (update u) f
    ∃ t, g.streams[n]? = some t ∧
      (s.isAffected f.value r.value = .ok true → t.carries r.value) ∧
      (s.fired < t.fired → ∃ v, t.carries v ∧
        (g.version ≤ f.version + 1 → v = g.value ∨ g.value.unchanged v = true) ∧
        (f.version < g.version → (∀ a ∈ f.subscribers, a.react r.value = []) → v = g.value)) := by
  obtain ⟨w, hd, g, hg, hnotify, hafter⟩ := of_update h
  dsimp only
  rw [hafter]
  obtain ⟨hvalue, hversion, -, -⟩ := of_lasting (notifyStreams_moves f.value r.value g).lasting
  rw [hvalue, hversion]
  have hrefires : Refires (fun _ => True) f g :=
    Refires.trans (.of_eq (derive_streams w f)) (hg ▸ writeValue_refires (reactWithin_heard _) _ _ _)
  obtain ⟨q, hq, hsq⟩ := hrefires.streams n s hs
  obtain ⟨t, ht, hqt⟩ := (FollowsFrom.refires (notifyStreams_refires f.value r.value g)).streams n q hq
  refine ⟨t, ht, fun ha => ?_, fun hfired => ?_⟩
  · obtain ⟨t', ht', hcarries⟩ := carries_of_notifyStreams hnotify hq (by rw [hsq.isAffected, ha])
    obtain rfl : t' = t := Option.some.inj (ht'.symm.trans ht)
    exact hcarries
  · obtain ⟨hdrop, hwrite⟩ | ⟨htake, -⟩ :=
      writeValue_cases (reactWithin reactionDepth) (u.writesNaN || r.wroteNaN) r.value (after (derive w) f)
    · -- nothing has been written: only the update itself can have triggered the derivation
      rw [hwrite] at hg
      subst hg
      obtain rfl : q = s := Option.some.inj (hq.symm.trans hs)
      rcases hqt.trigger with ⟨hsame, -⟩ | ⟨-, v, hsource, rfl⟩
      · omega
      · refine ⟨r.value, hsource, fun _ => .inr (Bool.and_eq_true_iff.mp hdrop).2, fun hlt => ?_⟩
        exact absurd hlt (Nat.lt_irrefl _)
    · obtain ⟨hheard, hinward⟩ := heard_of_writeValue reactionDepth htake
      rw [← hg] at hheard hinward
      rcases hqt.trigger with ⟨hcount, hsource⟩ | ⟨-, v, hsource, rfl⟩
      · -- an answer of a subscriber has triggered the derivation
        subst hg
        obtain ⟨v, hcarries, hunchanged, hanswered⟩ := carries_of_writeValue reactionDepth htake hs hq (hcount ▸ hfired)
        refine ⟨v, ?_, fun hle => .inr (hunchanged hle), fun _ hnone => absurd hnone hanswered⟩
        rw [Stream.carries, hcount, hsource]
        exact hcarries
      · refine ⟨r.value, hsource, fun hle => .inl ?_, fun _ hnone => ?_⟩
        · exact (hheard.same (Nat.le_antisymm hle hheard.version)).1.symm
        · exact (of_lasting (hinward hnone).lasting).1.symm

/-- A form that can look something up later. -/
def echoForm : Form where
  functions := { asyncDerivations := [("lookup", fun _ => ⟨0, .ok .null⟩)] }
  value := .object [("a", .bool true)]

/-- The form with a derivation whose value comes later, and a subscriber that answers the first change by a further one. -/
def echoing : Form :=
  (echoForm.next (.derive ⟨"b", .asyncFunction (.text "lookup"), none, [], none⟩)).next
    (.subscribe ⟨"echo", fun v => if v.hasPath [.name "c"] then [] else [.set [.name "c"] .null]⟩)

set_option maxRecDepth 100000 in
/-- The derivation is triggered with the value that the subscriber was told of, although the value with its answer in it
has triggered the derivation before. -/
theorem carries_of_update_echoed : echoing.Reachable ∧
    let u : Update := .set [.name "a"] .null
    let g := after (update u) echoing
    ∃ r t, result (update u) echoing = .ok r ∧ g.streams[0]? = some t ∧ t.carries r.value ∧ ¬t.carries g.value := by
  have fresh : echoForm.Reachable := .fresh rfl
  have updated : (result (update (.set [.name "a"] .null)) echoing).isOk = true := by decide +kernel
  have affected : (echoing.streams[0]?.bind fun s =>
      (result (update (.set [.name "a"] .null)) echoing).toOption.bind fun r =>
        (s.isAffected echoing.value r.value).toOption) = some true := by decide +kernel
  have overtaken : (result (update (.set [.name "a"] .null)) echoing).toOption.map (·.value.canonical) ≠
      some (after (update (.set [.name "a"] .null)) echoing).value.canonical := by decide +kernel
  refine ⟨(fresh.next _).next _, ?_⟩
  dsimp only
  cases h : result (update (.set [.name "a"] .null)) echoing with
  | error e =>
    rw [h] at updated
    cases updated
  | ok r =>
    rw [h] at affected overtaken
    obtain ⟨s, hs, ha⟩ := Option.bind_eq_some_iff.mp affected
    have ha : s.isAffected echoing.value r.value = .ok true := by
      cases he : s.isAffected echoing.value r.value with
      | ok b =>
        have hb : (s.isAffected echoing.value r.value).toOption = some true := ha
        rw [he] at hb
        cases hb
        rfl
      | error e =>
        have hb : (s.isAffected echoing.value r.value).toOption = some true := ha
        rw [he] at hb
        cases hb
    obtain ⟨t, ht, hcarries, -⟩ := carries_of_update h hs
    generalize after (update (.set [.name "a"] .null)) echoing = g at overtaken ht ⊢
    refine ⟨r, t, rfl, ht, hcarries ha, fun hcurrent => overtaken ?_⟩
    have hvalue : r.value = g.value := (Trigger.mk.inj (Option.some.inj ((hcarries ha).symm.trans hcurrent))).2
    rw [← hvalue]
    rfl

end Form
end FormRules
