import FormRules.Proofs.Form.ReadBack

/-!
# Edits that fault

An edit goes through checks, which change nothing, before it changes the value or the derivations. What
comes after that may still fault: deriving with a derivation that has just been registered, watchers that
are computed anew, and derivations whose values come later, when they are asked whether the change affects
them. Such an edit has an effect although it faults; one that faults before has none.
-/

namespace FormRules
open Live
variable {f g : Form} {u : Update} {d : Derivation} {o : Operation} {e : Fault}

/-- Whether an operation edits the value or the derivations of a form. -/
def Operation.isEdit : Operation → Bool
  | .update _ | .derive _ => true
  | _ => false

namespace Form

/-- Whether an edit passes what is checked before it is made: the update applies, and the derivations
come to a value; or the derivation can be added. -/
def Admits (f : Form) : Operation → Prop
  | .update u => ∃ w r, u.apply f.value = .ok w ∧ result (derive w) f = .ok r
  | .derive d => ∃ ds, Derivation.add f.functions f.derivations d = .ok ds
  | _ => True

/-- Whether an edit takes effect: it passes, and an update comes to a value that counts as another one. -/
def Takes (f : Form) : Operation → Prop
  | .update u => ∃ w r, u.apply f.value = .ok w ∧ result (derive w) f = .ok r ∧
      (!(u.writesNaN || r.wroteNaN) && f.value.unchanged r.value) = false
  | .derive d => f.Admits (.derive d)
  | _ => False

end Form

theorem Derivation.eq_of_add {fs : Functions} {ds ds' : List Derivation} (h : Derivation.add fs ds d = .ok ds') :
    ds' = ds ++ [d] := by
  -- what is done once the function, if there is one, has been found
  have rest {k : Option (List String) → Outcome (List Derivation)} (hnone : k none = .ok (ds ++ [d]))
      (hsome : ∀ walk, k (some walk) = .error (.cycle walk))
      (h : Derivation.cycle? (ds ++ [d]) >>= k = .ok ds') : ds' = ds ++ [d] := by
    obtain ⟨walk, -, h⟩ := of_bind_ok h
    cases walk with
    | none => exact (Except.ok.inj (hnone.symm.trans h)).symm
    | some walk => cases (hsome walk).symm.trans h
  unfold Derivation.add at h
  split at h
  · obtain ⟨-, -, h⟩ := of_bind_ok h
    exact rest rfl (fun _ => rfl) h
  · obtain ⟨-, -, h⟩ := of_bind_ok h
    exact rest rfl (fun _ => rfl) h
  · exact rest rfl (fun _ => rfl) h

namespace Live
variable {α β : Type} {v w : Value} {r : DerivationRun} {fuel : Nat} {wroteNaN : Bool} {ds : List Derivation}

/-- What holds after the first part of a sequence, and is kept by the second, holds after both. -/
theorem after_bind_of {P : Form → Prop} {x : Live α} {k : α → Live β} (hx : P (after x f))
    (hk : ∀ a, P (after (k a) (after x f))) : P (after (x >>= k) f) := by
  cases h : result x f with
  | ok a => rw [after_bind_ok h]; exact hk a
  | error e => rw [after_bind_error h]; exact hx

/-! ## Commits -/

theorem commitWithin_of_derive_error (h : result (derive v) f = .error e) :
    result (commitWithin fuel wroteNaN v) f = .error e ∧
      after (commitWithin fuel wroteNaN v) f = after (derive v) f := by
  rw [commitWithin_eq, result_get_bind, after_get_bind]
  exact ⟨result_bind_error h, after_bind_error h⟩

/-- A commit of what counts as the same value changes none of what lasts. -/
theorem lasting_commitWithin (h : result (derive v) f = .ok r)
    (hc : (!(wroteNaN || r.wroteNaN) && f.value.unchanged r.value) = true) :
    (after (commitWithin fuel wroteNaN v) f).lasting = f.lasting := by
  have hwrite : after (writeValue (reactWithin fuel) (wroteNaN || r.wroteNaN) r.value) (after (derive v) f) =
      after (derive v) f := by
    unfold writeValue
    rw [after_get_bind, show (!(wroteNaN || r.wroteNaN) && (after (derive v) f).value.unchanged r.value) = true
      from hc]
    rfl
  rw [commitWithin_eq, after_get_bind, after_bind_ok h]
  refine after_bind_of (P := fun g => g.lasting = f.lasting) ?_ fun _ => ?_
  · rw [hwrite]
    exact (derive_moves v f).lasting
  · rw [hwrite]
    exact ((notifyStreams_moves _ _).bind (fun _ => .pure r) _).lasting.trans (derive_moves v f).lasting

/-- A commit of another value writes it, whatever happens afterwards. -/
theorem version_commitWithin (h : result (derive v) f = .ok r)
    (hc : (!(wroteNaN || r.wroteNaN) && f.value.unchanged r.value) = false) :
    f.version < (after (commitWithin fuel wroteNaN v) f).version := by
  have keeps {g : Form} {α : Type} {x : Live α} (hx : Follows Write x) (hg : f.version < g.version) :
      f.version < (after x g).version :=
    (hx g).keeps (P := fun g => f.version < g.version) (fun _ _ hw hf => hf.trans_le hw.version) hg
  have hwrite : f.version <
      (after (writeValue (reactWithin fuel) (wroteNaN || r.wroteNaN) r.value) (after (derive v) f)).version := by
    unfold writeValue
    rw [after_get_bind, show (!(wroteNaN || r.wroteNaN) && (after (derive v) f).value.unchanged r.value) = false
      from hc, if_neg Bool.false_ne_true, after_set_bind]
    exact keeps (tellAll_follows (fun _ _ => .move) fun _ _ u _ => reactWithin_writes fuel u) (Nat.lt_succ_self _)
  rw [commitWithin_eq, after_get_bind, after_bind_ok h]
  exact after_bind_of (P := fun g => f.version < g.version) hwrite fun _ =>
    keeps ((notifyStreams_moves f.value r.value).writes.bind fun _ => .pure r) hwrite

/-! ## Commits that nobody else hears of -/

/-- From every form with a property, the computation gives a result, and keeps the property. -/
def Succeeds (P : Form → Prop) (x : Live α) : Prop := ∀ f, P f → (∃ a, result x f = .ok a) ∧ P (after x f)

namespace Succeeds
variable {P : Form → Prop} {x : Live α} {k : α → Live β}

theorem pure (a : α) : Succeeds P (Pure.pure a : Live α) := fun _ hf => ⟨⟨a, rfl⟩, hf⟩

theorem get_bind {k : Form → Live β} (h : ∀ f, P f → (∃ b, result (k f) f = .ok b) ∧ P (after (k f) f)) :
    Succeeds P (get >>= k) := h

theorem bind (hx : Succeeds P x) (hk : ∀ a, Succeeds P (k a)) : Succeeds P (x >>= k) := by
  intro f hf
  obtain ⟨⟨a, ha⟩, hg⟩ := hx f hf
  rw [result_bind_ok ha, after_bind_ok ha]
  exact hk a _ hg

/-- A guarded computation gives a result whether what is guarded does or not. -/
theorem guarded {x : Live Unit} {M : Form → Form → Prop} (hx : Follows M x) (hn : Follows M (report .subscriberFailed))
    (hm : ∀ f g, M f g → P f → P g) : Succeeds P (Live.guarded x) := by
  intro f hf
  refine ⟨?_, (Follows.tryCatch hx (fun _ => hn) f).keeps hm hf⟩
  unfold Live.guarded result
  rw [run_tryCatch]
  cases result x f with
  | ok a => exact ⟨a, rfl⟩
  | error e => exact ⟨(), rfl⟩

theorem forIn {l : List α} {b : β} {h : α → β → Live (ForInStep β)} (hh : ∀ a ∈ l, ∀ b, Succeeds P (h a b)) :
    Succeeds P (ForIn.forIn l b h) := by
  induction l generalizing b with
  | nil => exact pure b
  | cons a l ih =>
    rw [List.forIn_cons]
    refine (hh a List.mem_cons_self b).bind fun s => ?_
    cases s with
    | done b => exact pure b
    | yield b => exact ih fun c hc => hh c (List.mem_cons_of_mem _ hc)

end Succeeds

/-- Nobody has subscribed to a watcher. -/
def Unheard (f : Form) : Prop := ∀ w ∈ f.watchers, w.subscribers = 0

theorem markStale_succeeds (notify : Source → Live Unit) (n : Nat) : Succeeds Unheard (markStale notify n) := by
  refine .get_bind fun f hf => ?_
  cases h : f.watchers[n]? with
  | none => exact ⟨⟨(), rfl⟩, hf⟩
  | some w =>
    have hw : w.subscribers = 0 := hf w (List.mem_of_getElem? h)
    dsimp only
    split
    · exact ⟨⟨(), rfl⟩, hf⟩
    · rw [hw]
      refine ⟨⟨(), rfl⟩, fun v hv => ?_⟩
      rcases List.mem_or_eq_of_mem_set hv with hv | rfl
      · exact hf v hv
      · rfl

theorem notify_succeeds (s : Source) : Succeeds Unheard (notify s) := by
  refine .get_bind fun f hf => ?_
  refine Succeeds.bind (x := observers s) (.get_bind fun g hg => ⟨⟨_, rfl⟩, hg⟩) (fun ns => ?_) f hf
  exact (Succeeds.forIn fun n _ _ => (markStale_succeeds _ n).bind fun _ => .pure _).bind fun _ => .pure _

theorem tellAll_succeeds (hu : Unheard f) (hs : f.streams = []) {react : Update → Live Unit}
    (hr : ∀ u, Follows Write (react u)) (ss : List Subscriber) (v : Value) : ∃ a, result (do
      notify .value
      for s in ss do
        guarded do
          tell s.tag v
          (s.react v).forM react) f = .ok a := by
  obtain ⟨⟨a, ha⟩, -⟩ := notify_succeeds .value f hu
  have hg : (after (notify .value) f).streams = [] := (notify_moves .value f).keeps (fun _ _ => Move.streams) hs
  rw [result_bind_ok ha]
  refine (Succeeds.bind (P := fun g => g.streams = []) (.forIn fun s _ _ => .bind ?_ fun _ => .pure _)
    (fun _ => .pure ()) _ hg).1
  exact .guarded ((tell_moves _ _).writes.bind fun _ => .forM fun u _ => hr u) (report_moves _).writes
    fun _ _ => Write.streams

theorem writeValue_succeeds (hu : Unheard f) (hs : f.streams = []) {react : Update → Live Unit}
    (hr : ∀ u, Follows Write (react u)) (wroteNaN : Bool) (v : Value) :
    ∃ a, result (writeValue react wroteNaN v) f = .ok a := by
  unfold writeValue
  rw [result_get_bind]
  split
  · exact ⟨(), rfl⟩
  · rw [result_set_bind]
    exact tellAll_succeeds (f := { f with value := v, version := f.version + 1 }) hu hs hr f.subscribers v

/-- In a form that nobody else hears of, a commit faults only if deriving does. -/
theorem commitWithin_succeeds (hu : Unheard f) (hs : f.streams = []) (h : result (derive v) f = .ok r)
    (fuel : Nat) (wroteNaN : Bool) : ∃ a, result (commitWithin fuel wroteNaN v) f = .ok a := by
  have hr := reactWithin_writes fuel
  obtain ⟨a, ha⟩ := writeValue_succeeds (f := after (derive v) f) hu hs hr (wroteNaN || r.wroteNaN) r.value
  have hg := (writeValue_writes hr (wroteNaN || r.wroteNaN) r.value (after (derive v) f)).keeps
    (fun _ _ => Write.streams) hs
  rw [commitWithin_eq, result_get_bind, result_bind_ok h, result_bind_ok ha, notifyStreams, bind_assoc,
    result_get_bind, hg]
  exact ⟨r, rfl⟩

/-! ## Updates -/

theorem after_perform_update : after (perform (.update u)) f = after (update u) f :=
  after_bind_eq fun _ _ => rfl

theorem update_of_apply_error (h : u.apply f.value = .error e) :
    result (update u) f = .error e ∧ after (update u) f = f := by
  have ha : result (ofOutcome (u.apply f.value)) f = .error e := h
  rw [update, result_get_bind, after_get_bind]
  exact ⟨result_bind_error ha, after_bind_error ha⟩

theorem update_of_apply_ok (h : u.apply f.value = .ok w) :
    result (update u) f = result (commit u.writesNaN w) f ∧
      after (update u) f = after (commit u.writesNaN w) f := by
  have ha : result (ofOutcome (u.apply f.value)) f = .ok w := h
  rw [update, result_get_bind, after_get_bind]
  exact ⟨result_bind_ok ha, after_bind_ok ha⟩

/-! ## Derivations -/

theorem after_perform_derive : after (perform (.derive d)) f = after (addDerivation d) f :=
  after_bind_eq fun _ _ => rfl

theorem addDerivation_of_error (h : Derivation.add f.functions f.derivations d = .error e) :
    result (addDerivation d) f = .error e ∧ after (addDerivation d) f = f := by
  have ha : result (ofOutcome (Derivation.add f.functions f.derivations d)) f = .error e := h
  rw [addDerivation, result_get_bind, after_get_bind]
  exact ⟨result_bind_error ha, after_bind_error ha⟩

/-- A derivation that can be added stays, whatever happens afterwards. -/
theorem derivations_addDerivation (h : Derivation.add f.functions f.derivations d = .ok ds) :
    (after (addDerivation d) f).derivations = ds := by
  have ha : result (ofOutcome (Derivation.add f.functions f.derivations d)) f = .ok ds := h
  have kept {g : Form} {α : Type} {x : Live α} (hx : Follows Write x) :
      FollowsFrom (fun f g => g.derivations = f.derivations) g x := (hx g).mono fun _ _ => Write.derivations
  rw [addDerivation, after_get_bind, after_bind_ok ha, after_set_bind]
  refine FollowsFrom.keeps (M := fun f g => g.derivations = f.derivations) (P := fun g => g.derivations = ds) ?_
    (fun _ _ hm hg => hm.trans hg) rfl
  cases d.isAsync with
  | false =>
    simp only [Bool.false_eq_true, if_false]
    exact .get_bind (kept ((commit_writes _ _).bind fun r => .pure r))
  | true =>
    simp only [if_true]
    refine .bind (.of_eq rfl) fun s _ => .bind (.single rfl) fun _ _ => .get_bind ?_
    refine .bind (kept (commit_writes _ _)) fun r _ => .get_bind (.get_bind ?_)
    exact kept ((fire_moves _ _).writes.bind fun _ => .pure r)

end Live

namespace Form

theorem next_update : f.next (.update u) = after (update u) f := after_perform_update

theorem next_derive : f.next (.derive d) = after (addDerivation d) f := after_perform_derive

/-- An edit that does not pass faults, and leaves nothing but reports. -/
theorem next_of_not_admits (ho : o.isEdit = true) (h : ¬f.Admits o) :
    (∃ e, result (perform o) f = .error e) ∧ f.next o = { f with journal := (f.next o).journal } := by
  cases o with
  | update u =>
    rw [next_update]
    cases ha : u.apply f.value with
    | error e =>
      obtain ⟨hr, hf⟩ := update_of_apply_error ha
      exact ⟨⟨e, result_bind_error hr⟩, by rw [hf]⟩
    | ok w =>
      obtain ⟨hr, hf⟩ := update_of_apply_ok ha
      cases hd : result (derive w) f with
      | ok r => exact absurd ⟨w, r, ha, hd⟩ h
      | error e =>
        obtain ⟨hc, hg⟩ := commitWithin_of_derive_error hd
        exact ⟨⟨e, result_bind_error (hr.trans hc)⟩, by rw [hf, commit, hg]; rfl⟩
  | derive d =>
    rw [next_derive]
    cases ha : Derivation.add f.functions f.derivations d with
    | ok ds => exact absurd ⟨ds, ha⟩ h
    | error e =>
      obtain ⟨hr, hf⟩ := addDerivation_of_error ha
      exact ⟨⟨e, result_bind_error hr⟩, by rw [hf]⟩
  | _ => cases ho

/-- An edit that does not pass what is checked first faults, and leaves nothing but reports. Any edit
leaves the value and the derivations, and with these the order in which they are applied, as they are if
and only if it does not take effect, whether it faults afterwards or not; it can only where derivations
come later or somebody has subscribed to a watcher. -/
theorem next_of_edit (f : Form) (ho : o.isEdit = true) :
    (¬f.Admits o → (∃ e, result (perform o) f = .error e) ∧
      f.next o = { f with journal := (f.next o).journal }) ∧
    ((f.next o).value = f.value ∧ (f.next o).version = f.version ∧ (f.next o).derivations = f.derivations ↔
      ¬f.Takes o) ∧
    (∀ u e, o = .update u → f.streams = [] → Unheard f → result (perform o) f = .error e → ¬f.Admits o) := by
  refine ⟨next_of_not_admits ho, ⟨?_, ?_⟩, ?_⟩
  · rintro ⟨-, hversion, hderivations⟩ htakes
    cases o with
    | update u =>
      obtain ⟨w, r, ha, hd, hc⟩ := htakes
      rw [next_update, (update_of_apply_ok ha).2] at hversion
      exact absurd hversion (version_commitWithin hd hc).ne'
    | derive d =>
      obtain ⟨ds, ha⟩ := htakes
      rw [next_derive, derivations_addDerivation ha, Derivation.eq_of_add ha] at hderivations
      have hlength := congrArg List.length hderivations
      simp at hlength
    | _ => cases ho
  · intro htakes
    by_cases hadmits : f.Admits o
    · cases o with
      | update u =>
        obtain ⟨w, r, ha, hd⟩ := hadmits
        have hc : (!(u.writesNaN || r.wroteNaN) && f.value.unchanged r.value) = true := by
          by_contra hc
          exact htakes ⟨w, r, ha, hd, by simpa using hc⟩
        rw [next_update, (update_of_apply_ok ha).2]
        obtain ⟨hvalue, hversion, hderivations, -⟩ := of_lasting (lasting_commitWithin hd hc)
        exact ⟨hvalue, hversion, hderivations⟩
      | derive d => exact absurd hadmits htakes
      | _ => cases ho
    · rw [(next_of_not_admits ho hadmits).2]
      exact ⟨rfl, rfl, rfl⟩
  · rintro u e rfl hstreams hunheard he ⟨w, r, ha, hd⟩
    obtain ⟨s, hs⟩ := commitWithin_succeeds hunheard hstreams hd reactionDepth u.writesNaN
    have hok : result (perform (.update u)) f = .ok () := by
      have hu : result (update u) f = .ok s := (update_of_apply_ok ha).1.trans hs
      exact result_bind_ok hu
    rw [hok] at he
    cases he

/-- A form with a list. -/
def listForm : Form where
  value := .object [("items", .list [])]

/-- A derivation that writes into the list as if it were a mapping. -/
def itemsTotal : Derivation := ⟨"items.total", .fixed (.int 1), none, [], none⟩

set_option maxRecDepth 100000 in
/-- A derivation that cannot write its target is kept although adding it faults, so that every later
update faults, too. -/
theorem next_of_edit_listed : listForm.Reachable ∧
    (∃ e, result (perform (.derive itemsTotal)) listForm = .error e) ∧
    ¬((listForm.next (.derive itemsTotal)).value = listForm.value ∧
      (listForm.next (.derive itemsTotal)).version = listForm.version ∧
      (listForm.next (.derive itemsTotal)).derivations = listForm.derivations) ∧
    (result (perform (.update (.set [.name "x"] .null))) listForm).isOk = true ∧
    ∃ e, result (perform (.update (.set [.name "x"] .null))) (listForm.next (.derive itemsTotal)) = .error e := by
  have added : (Derivation.add listForm.functions listForm.derivations itemsTotal).isOk = true := by decide +kernel
  have admitted : listForm.Takes (.derive itemsTotal) := by
    cases h : Derivation.add listForm.functions listForm.derivations itemsTotal with
    | error e => rw [h] at added; cases added
    | ok ds => exact ⟨ds, h⟩
  refine ⟨.fresh rfl, exists_of_not_isOk (by decide +kernel), fun h => ?_, by decide +kernel,
    exists_of_not_isOk (by decide +kernel)⟩
  exact (next_of_edit listForm (o := .derive itemsTotal) rfl).2.1.mp h admitted

end Form
end FormRules
