import FormRules.Proofs.Derivation.Frame
import FormRules.Proofs.Form.Frame
import FormRules.Proofs.Value.Equality

/-!
# Reading a write back

A place that has been written keeps what is written there (`Holds`) while derivations, watchers and
subscribers take notice of the write, as long as none of them writes near it themselves. Whether the
form takes the write in the first place is decided by `unchanged`, which does not tell apart all that
`strictEq` does.
-/

namespace FormRules
open Live Relation
variable {p : List Key} {x v w : Value} {f g : Form}

/-- Whether an update leaves a place alone. -/
def Update.Spares (p : List Key) : Update → Prop
  | .set q _ => Path.overlap p q = false
  | .patch (.map us) => Path.Escapes p us
  | .patch _ | .replace _ => False

theorem Update.apply_seat {u : Update} (hu : u.Spares p) (h : u.apply v = .ok w) (hv : v.seat? p = some x) :
    w.seat? p = some x := by
  cases u with
  | set q new => exact Value.seat?_setPath_of_disjoint hu (of_mapError_ok h) hv
  | patch delta =>
    cases delta with
    | map us => cases h; exact Value.seat?_mergeDelta hu hv
    | _ => cases hu
  | replace new => cases hu

namespace Form

/-- The value, and what may change it in the course of an update. -/
def body (f : Form) : Value × List Derivation × List Subscriber := (f.value, f.derivations, f.subscribers)

/-- Nothing that an update sets off writes near a path. -/
structure Spares (f : Form) (p : List Key) : Prop where
  derivations : ∀ d ∈ f.derivations, d.isAsync = false → d.Spares p
  subscribers : ∀ s ∈ f.subscribers, ∀ v, ∀ u ∈ s.react v, u.Spares p

/-- Besides, the place that the path leads to holds a value. -/
structure Holds (p : List Key) (x : Value) (f : Form) : Prop extends f.Spares p where
  seat : f.value.seat? p = some x

theorem body_eq_iff : g.body = f.body ↔
    g.value = f.value ∧ g.derivations = f.derivations ∧ g.subscribers = f.subscribers := by
  simp [body]

theorem Spares.of_body (h : g.body = f.body) (hf : f.Spares p) : g.Spares p := by
  obtain ⟨-, hd, hs⟩ := body_eq_iff.mp h
  exact ⟨hd ▸ hf.derivations, hs ▸ hf.subscribers⟩

theorem Holds.of_body (h : g.body = f.body) (hf : Holds p x f) : Holds p x g :=
  ⟨hf.toSpares.of_body h, (body_eq_iff.mp h).1 ▸ hf.seat⟩

/-- What holds a value in one form holds it in another. -/
def Keeping (p : List Key) (x : Value) (f g : Form) : Prop := Holds p x f → Holds p x g

end Form

theorem Move.body (h : Move f g) : g.body = f.body := by
  obtain ⟨hv, -, hd, hs⟩ := Form.of_lasting h.lasting
  exact Form.body_eq_iff.mpr ⟨hv, hd, hs⟩

namespace Live
open Form

theorem FollowsFrom.body {α : Type} {c : Live α} (h : FollowsFrom Move f c) : (after c f).body = f.body :=
  h.keeps (P := fun g => g.body = f.body) (fun _ _ hm hg => hm.body.trans hg) rfl

theorem Follows.keeping {α : Type} {c : Live α} (h : Follows Move c) : Follows (Keeping p x) c :=
  h.mono fun _ _ h hf => hf.of_body h.body

/-- A computation has only to be followed from forms that hold the value. -/
theorem keeping_of_holds {α : Type} {c : Live α} (h : ∀ f, Holds p x f → FollowsFrom (Keeping p x) f c) :
    Follows (Keeping p x) c := by
  intro f
  by_cases hf : Holds p x f
  · exact h f hf
  · exact .single fun h => absurd h hf

theorem Follows.holds {α : Type} {c : Live α} (h : Follows (Keeping p x) c) (hf : Holds p x f) :
    Holds p x (after c f) := (h f).keeps (fun _ _ hk => hk) hf

/-! ## Updates -/

theorem derive_seat {r : DerivationRun} (hf : f.Spares p) (hv : v.seat? p = some x)
    (h : result (derive v) f = .ok r) : r.value.seat? p = some x := by
  have run : Checking.Gives (·.value.seat? p = some x)
      (Derivation.run f.functions f.external f.settings.maxPasses.toNat f.derivations v) :=
    Derivation.run_seat _ hf.derivations hv
  exact run f.journal r h

/-- A write that is taken holds the value from then on. -/
theorem writeValue_holds {react : Update → Live Unit} {wroteNaN : Bool}
    (hr : ∀ u, u.Spares p → Follows (Keeping p x) (react u)) (hf : f.Spares p) (hv : v.seat? p = some x)
    (hc : (!wroteNaN && f.value.unchanged v) = false) : Holds p x (after (writeValue react wroteNaN v) f) := by
  unfold writeValue
  rw [after_get_bind, hc, if_neg Bool.false_ne_true, after_set_bind]
  have hg : Holds p x { f with value := v, version := f.version + 1 } := ⟨⟨hf.derivations, hf.subscribers⟩, hv⟩
  refine Follows.holds ?_ hg
  refine tellAll_follows (fun _ _ hm hf => hf.of_body hm.body) fun s hs u hu => ?_
  exact hr u (hf.subscribers s hs v u hu)

theorem writeValue_keeping {react : Update → Live Unit} {wroteNaN : Bool}
    (hr : ∀ u, u.Spares p → Follows (Keeping p x) (react u)) (hv : v.seat? p = some x) :
    Follows (Keeping p x) (writeValue react wroteNaN v) := by
  refine keeping_of_holds fun f hf => ?_
  cases hc : !wroteNaN && f.value.unchanged v with
  | true => exact .of_eq (by unfold writeValue; rw [after_get_bind, hc]; rfl)
  | false => exact .single fun _ => writeValue_holds hr hf.toSpares hv hc

theorem commitWithin_keeping_of {fuel : Nat} (hr : ∀ u, u.Spares p → Follows (Keeping p x) (reactWithin fuel u))
    (wroteNaN : Bool) (hv : v.seat? p = some x) : Follows (Keeping p x) (commitWithin fuel wroteNaN v) := by
  rw [commitWithin_eq]
  refine keeping_of_holds fun f hf => .get_bind (.bind ((derive_moves v).keeping f) fun r h => ?_)
  have hs : r.value.seat? p = some x := derive_seat hf.toSpares hv h
  refine Follows.bind (writeValue_keeping hr hs) (fun _ => ?_) _
  exact (notifyStreams_moves _ _).keeping.bind fun _ => .pure r

/-- What a subscriber answers with leaves the place alone, and so does what is answered to that. -/
theorem reactWithin_keeping (fuel : Nat) {u : Update} (hu : u.Spares p) :
    Follows (Keeping p x) (reactWithin fuel u) := by
  induction fuel generalizing u with
  | zero => exact .pure ()
  | succ fuel ih =>
    refine keeping_of_holds fun f hf => .get_bind (.bind (.of_eq rfl) fun w hw => ?_)
    have hs : w.seat? p = some x := Update.apply_seat hu hw hf.seat
    exact (commitWithin_keeping_of (fun _ => ih) _ hs).bind (fun _ => .pure ()) _

/-- A commit derives, writes what has been derived, and changes nothing after that. -/
theorem body_commitWithin {fuel : Nat} {wroteNaN : Bool} {r : DerivationRun}
    (h : result (commitWithin fuel wroteNaN v) f = .ok r) : ∃ g, g.body = f.body ∧ result (derive v) f = .ok r ∧
      (after (commitWithin fuel wroteNaN v) f).body =
        (after (writeValue (reactWithin fuel) (wroteNaN || r.wroteNaN) r.value) g).body := by
  rw [commitWithin_eq] at h ⊢
  obtain ⟨f', hf, h, ha⟩ := of_result_bind h
  cases hf
  obtain ⟨s, hs, h, hb⟩ := of_result_bind h
  obtain ⟨_, -, h, hc⟩ := of_result_bind h
  obtain ⟨_, -, h, hd⟩ := of_result_bind h
  cases h
  refine ⟨after (derive v) f, (derive_moves v f).body, hs, ?_⟩
  have told := (notifyStreams_moves f.value r.value
    (after (writeValue (reactWithin fuel) (wroteNaN || r.wroteNaN) r.value) (after (derive v) f))).body
  rw [ha]
  exact (congrArg Form.body (hb.trans (hc.trans hd))).trans told

/-- An update that is made has applied itself to the value, and committed what came out. -/
theorem of_result_update {u : Update} {r : DerivationRun} (h : result (update u) f = .ok r) :
    ∃ w, u.apply f.value = .ok w ∧ result (commit u.writesNaN w) f = .ok r ∧
      after (update u) f = after (commit u.writesNaN w) f := by
  obtain ⟨f', hf, h, ha⟩ := of_result_bind h
  cases hf
  obtain ⟨w, hw, h, hb⟩ := of_result_bind h
  exact ⟨w, hw, h, ha.trans hb⟩

end Live

namespace Form

/-- A write is either not taken, which leaves the value as it was, or holds its place. -/
theorem update_set_cases {r : DerivationRun} (hi : ∀ n, .index n ∈ p → 0 ≤ n) (hv : v.hasNaN = false)
    (hf : f.Spares p) (h : result (update (.set p v)) f = .ok r) :
    (r.wroteNaN = false ∧ f.value.unchanged r.value = true) ∧ (after (update (.set p v)) f).value = f.value ∨
    ¬(r.wroteNaN = false ∧ f.value.unchanged r.value = true) ∧
      (after (update (.set p v)) f).value.seat? p = some (if f.value.hides p then .undefined else v) := by
  obtain ⟨w, hw, h, ha⟩ := of_result_update h
  obtain ⟨g, hg, hr, hb⟩ := body_commitWithin h
  have seat : r.value.seat? p = some (if f.value.hides p then .undefined else v) :=
    derive_seat hf (Value.seat?_setPath hi (of_mapError_ok hw)) hr
  have hgv : g.value = f.value := (body_eq_iff.mp hg).1
  have value := (body_eq_iff.mp hb).1
  rw [show (Update.set p v).writesNaN = false from hv, Bool.false_or] at value
  rw [ha, commit, show (Update.set p v).writesNaN = false from hv, value, ← hgv]
  cases hc : !r.wroteNaN && g.value.unchanged r.value with
  | true =>
    refine .inl ⟨by simpa using hc, ?_⟩
    unfold writeValue
    rw [after_get_bind, hc]
    rfl
  | false =>
    refine .inr ⟨by simpa using hc, ?_⟩
    rw [hgv]
    exact (writeValue_holds (fun _ => reactWithin_keeping reactionDepth) (hf.of_body hg) seat hc).seat

/-- Whether a write can be read back. A write is lost in two ways only: an index on the way is hidden
behind its text, or what the value of the form comes to does not count as a change. -/
theorem getPath_update_set {r : DerivationRun} (hp : p ≠ []) (hi : ∀ n, .index n ∈ p → 0 ≤ n)
    (hv : v.hasNaN = false) (hd : v.hasDistinctKeys = true) (hf : f.Spares p)
    (h : result (update (.set p v)) f = .ok r) :
    ((after (update (.set p v)) f).value.getPath p).strictEq v = true ↔
      (f.value.hides p = true → v = .undefined) ∧
        (r.wroteNaN = false ∧ f.value.unchanged r.value = true → (f.value.getPath p).strictEq v = true) := by
  rcases update_set_cases hi hv hf h with ⟨hc, hg⟩ | ⟨hc, hs⟩
  · rw [hg]
    refine ⟨fun he => ⟨fun hh => ?_, fun _ => he⟩, fun he => he.2 hc⟩
    rw [Value.getPath_of_seat? hp (Value.seat?_of_hides hh)] at he
    exact Value.undefined_strictEq_iff.mp he
  · rw [Value.getPath_of_seat? hp hs]
    cases hh : f.value.hides p with
    | true =>
      rw [if_pos rfl, Value.undefined_strictEq_iff]
      exact ⟨fun he => ⟨fun _ => he, fun h => absurd h hc⟩, fun he => he.1 rfl⟩
    | false =>
      rw [if_neg Bool.false_ne_true]
      exact ⟨fun _ => ⟨nofun, fun h => absurd h hc⟩, fun _ => Value.strictEq_self v hv hd⟩

/-- A form with a derivation, and a subscriber who answers every change. -/
def derivingForm : Form where
  value := .object [("a", .bool true), ("b", .int 2)]
  derivations := [⟨"b", .fixed (.int 2), none, [], none⟩]
  subscribers := [⟨"s", fun _ => [.set [.name "c"] .null, .patch (.object [("d", .null)])]⟩]

theorem derivingForm_spares : derivingForm.Spares [.name "a"] := by
  refine ⟨fun d hd _ keys hk => ?_, fun s hs v u hu => ?_⟩
  · cases List.mem_singleton.mp hd
    cases hk
    decide
  · cases List.mem_singleton.mp hs
    simp only [List.mem_cons, List.not_mem_nil, or_false] at hu
    rcases hu with rfl | rfl
    · show Path.overlap [.name "a"] [.name "c"] = false
      decide
    · intro e he ht
      cases List.mem_singleton.mp he
      exact absurd ht (by decide)

set_option maxRecDepth 100000 in
/-- A number that is written over an equal boolean is lost. -/
theorem getPath_update_set_lost :
    (∃ r, result (update (.set [.name "a"] (.int 1))) derivingForm = .ok r) ∧
    ¬ ((after (update (.set [.name "a"] (.int 1))) derivingForm).value.getPath [.name "a"]).strictEq
      (.int 1) = true := by
  have hc : (match result (update (.set [.name "a"] (.int 1))) derivingForm with
      | .ok r => !r.wroteNaN && derivingForm.value.unchanged r.value
      | .error _ => false) = true := by decide +kernel
  cases h : result (update (.set [.name "a"] (.int 1))) derivingForm with
  | error e => rw [h] at hc; cases hc
  | ok r =>
    rw [h] at hc
    refine ⟨⟨r, rfl⟩, fun he => ?_⟩
    have hb := getPath_update_set (by decide) (by simp) (by decide) (by decide) derivingForm_spares h
    exact absurd ((hb.mp he).2 (by simpa using hc)) (by decide)

end Form
end FormRules
