import FormRules.Proofs.Form.Verdict

/-!
# Checks come to an end

A check that is made at once gives a result, whatever its guards are: an inquiry answers with what it knows, and every
fault of a check is reported. What a check comes to is what the validator that stands for it finds.
-/

namespace FormRules
open Condition (verdict)

namespace Live
variable {α β : Type} {f g : Form}

namespace Succeeds
variable {P : Form → Prop}

theorem of_follows {M : Form → Form → Prop} {x : Live α} (hm : ∀ f g, M f g → P f → P g) (hx : Follows M x)
    (hok : ∀ f, P f → ∃ a, result x f = .ok a) : Succeeds P x := fun f hf => ⟨hok f hf, (hx f).keeps hm hf⟩

/-- Faults that a computation deals with itself do not count. -/
theorem run_bind {x : ExceptT Fault Live α} {k : α → ExceptT Fault Live β} (hx : Succeeds P x.run)
    (hk : ∀ a, Succeeds P (k a).run) : Succeeds P (x >>= k).run := by
  rw [ExceptT.run_bind]
  refine hx.bind fun o => ?_
  cases o with
  | ok a => exact hk a
  | error e => exact pure _

theorem run_lift {x : Live α} (hx : Succeeds P x) : Succeeds P (liftM x : ExceptT Fault Live α).run := by
  show Succeeds P (Except.ok <$> x)
  rw [map_eq_pure_bind]
  exact hx.bind fun _ => pure _

end Succeeds

/-! ## Inquiries answer -/

/-- The computation gives a result from every form. -/
abbrev Answers (x : Live α) : Prop := Succeeds (fun _ => True) x

theorem answers_of_ok {x : Live α} (h : ∀ f, ∃ a, result x f = .ok a) : Answers x := fun f _ => ⟨h f, trivial⟩

theorem ofReporting_answers (x : Reporting α) : Answers (ofReporting x) := answers_of_ok fun _ => ⟨_, rfl⟩

theorem putSlot_answers (k : SlotKey) (s : Slot) : Answers (putSlot k s) := answers_of_ok fun _ => ⟨_, rfl⟩

theorem record_answers (k : SlotKey) (i : Inquiry) (e : InquiryEvent) : Answers (record k i e) :=
  answers_of_ok fun _ => ⟨_, rfl⟩

theorem currentAnswer_answers (k : SlotKey) (pending : Bool) : Answers (currentAnswer k pending) :=
  answers_of_ok fun _ => ⟨_, rfl⟩

theorem guarded_answers (x : Live Unit) : Answers (guarded x) :=
  .guarded (M := fun _ _ => True) (fun _ => .single trivial) (fun _ => .single trivial) fun _ _ _ _ => trivial

section
variable (notify : Source → Live Unit)

theorem dispatch_answers (k : SlotKey) (s : Slot) (d : Dispatch) : Answers (dispatch notify k s d) := by
  have hcancel : Answers (cancel s.lane.timer) := answers_of_ok fun _ => by cases s.lane.timer <;> exact ⟨_, rfl⟩
  refine hcancel.bind fun _ => .get_bind fun f hf => ?_
  split
  · refine Succeeds.bind (answers_of_ok fun _ => ⟨_, rfl⟩) (fun _ => ?_) f hf
    exact (record_answers k _ _).bind fun _ => putSlot_answers k _
  · exact (record_answers k _ _).bind (fun _ => (putSlot_answers k _).bind fun _ => guarded_answers _) f hf

theorem ask_answers (k : SlotKey) (i : Inquiry) (d : Dispatch) : Answers (ask notify k i d) := by
  refine .get_bind fun f hf => ?_
  dsimp only
  cases f.answers.find? f.schedule.now d.key with
  | mk known answers =>
  refine Succeeds.bind (answers_of_ok fun _ => ⟨_, rfl⟩) (fun _ => ?_) f hf
  cases known with
  | some b => exact Succeeds.bind (answers_of_ok fun _ => ⟨_, rfl⟩) fun _ => .pure b
  | none =>
    refine Succeeds.bind (answers_of_ok fun _ => ⟨_, rfl⟩) fun s => ?_
    cases s with
    | none => exact .pure _
    | some s =>
      dsimp only
      split
      · exact (dispatch_answers notify k s d).bind fun _ => currentAnswer_answers _ _
      · exact currentAnswer_answers _ _

theorem inquire_answers (key : String) (i : Inquiry) (root : Value) (field : List Key) :
    Answers (inquire notify key i root field) := by
  have opened : Answers (openSlot ⟨key, field⟩ i) := by
    refine .get_bind fun f hf => ?_
    split
    · exact putSlot_answers _ _ f hf
    · exact ⟨⟨_, rfl⟩, trivial⟩
  refine opened.bind fun _ => Succeeds.bind (answers_of_ok fun _ => ⟨_, rfl⟩) fun c => ?_
  split
  · exact (ofReporting_answers _).bind fun _ => currentAnswer_answers _ _
  · exact ask_answers notify _ _ _

/-- An inquiry is compiled to a function that answers. -/
theorem holdsAt_inquiry (h : f.compiled.Made) (i : Inquiry) (root : Value) (field : List Key) :
    ∃ b, result (holdsAt notify none (.inquiry i) root field) f = .ok b := by
  obtain ⟨key, j, hj⟩ := h.condition_inquiry none i
  obtain ⟨hresult, hafter⟩ := result_functionAt (f := after (compile none (.inquiry i)) f) hj
  have hcompile : result (compile none (.inquiry i)) f = .ok (f.compiled.condition none (.inquiry i)).1 := rfl
  unfold holdsAt
  rw [result_bind_ok hcompile, result_bind_ok hresult]
  exact (inquire_answers notify key j root field _ trivial).1

end

/-! ## Validators find something or nothing -/

/-- Whatever is asked of a host is answered. -/
structure Responds (P : Form → Prop) (h : Host Live) : Prop where
  lift : ∀ {α : Type} (x : Reporting α), Succeeds P (h.lift x)
  inquire : ∀ i c, Succeeds P (h.inquire i c)
  valueOf : ∀ e c, Succeeds P (h.valueOf e c)

theorem hostAt_responds {P : Form → Prop} (hm : ∀ f g, Move f g → P f → P g) (hmade : ∀ f, P f → f.compiled.Made)
    (fs : Functions) (field : List Key) : Responds P (hostAt fs field) where
  lift x := .of_follows hm (ofReporting_moves x) fun _ _ => ⟨_, rfl⟩
  inquire i c := .of_follows hm ((hostAt_quiet fs field).inquire i c) fun f hf =>
    holdsAt_inquiry notify (f := { f with reading := none }) (hmade f hf) i f.value field
  valueOf e c := .of_follows hm (valueOf_moves e c) fun _ _ => ⟨_, rfl⟩

section
variable {P : Form → Prop} {h : Host Live} (hh : Responds P h) (c : Context)
include hh

theorem guardsHold_succeeds (gs : List Condition) : Succeeds P (h.guardsHold c gs) := by
  induction gs with
  | nil => exact .pure true
  | cons g gs ih =>
    have rest (b : Bool) : Succeeds P (if b = true then h.guardsHold c gs else pure false) := by
      split
      · exact ih
      · exact .pure false
    cases g with
    | test t => exact (hh.lift _).bind rest
    | inquiry i => exact (hh.inquire i c).bind rest

theorem errorParams_succeeds (es : Entries) : Succeeds P (h.errorParams c es) := by
  induction es with
  | nil => exact .pure []
  | cons e es ih => exact (hh.valueOf _ c).bind fun _ => ih.bind fun _ => .pure _

theorem check_succeeds (v : CompiledValidator) : Succeeds P (v.check h c).run := by
  have outcome {α : Type} (o : Outcome α) : Succeeds P (ExceptT.mk (pure o) : ExceptT Fault Live α).run := .pure o
  unfold CompiledValidator.check
  cases v.source with
  | builtin b =>
    have rest (bound : Value) : Succeeds P (do
        let params ← ExceptT.mk (h.lift (b.check c.current bound).run)
        return params.map fun ps => v.config.error c ps .null : ExceptT Fault Live _).run :=
      .run_bind (hh.lift _) fun _ => outcome (.ok _)
    dsimp only
    split
    · exact rest _
    · exact .run_bind (.run_lift (hh.valueOf _ c)) rest
  | expression =>
    refine .run_bind (outcome _) fun w => ?_
    split
    · exact outcome (.ok none)
    · exact .run_bind (.run_lift (errorParams_succeeds hh c _)) fun _ => outcome (.ok _)
  | function f =>
    refine .run_bind (outcome _) fun w => ?_
    split
    · exact outcome (.ok none)
    · exact .run_bind (.run_lift (errorParams_succeeds hh c _)) fun _ => outcome (.ok _)
  | async f => exact outcome (.ok none)
  | remote f => exact outcome (.ok none)

theorem validate_succeeds (v : CompiledValidator) : Succeeds P (v.validate h c) := by
  unfold CompiledValidator.validate
  split
  · exact .pure none
  refine (guardsHold_succeeds hh c _).bind fun b => ?_
  split
  · exact .pure none
  refine (check_succeeds hh c v).bind fun o => ?_
  cases o with
  | ok e => exact .pure e
  | error e => exact (hh.lift _).bind fun _ => .pure none

end

/-! ## What a guarded validator finds -/

section
variable (fs : Functions) (field : List Key) (c : Context)

theorem guardsHold_tests {gs : List Condition} (hgs : ∀ g ∈ gs, ∃ t, g = .test t) (f : Form) :
    result ((hostAt fs field).guardsHold c gs) f = .ok (gs.all (verdict fs.customFunctions c)) := by
  induction gs generalizing f with
  | nil => rfl
  | cons g gs ih =>
    obtain ⟨⟨t, rfl⟩, hrest⟩ := List.forall_mem_cons.mp hgs
    have hlift : result ((hostAt fs field).lift (t.holds fs.customFunctions c)) f =
        .ok (verdict fs.customFunctions c (.test t)) := by
      rw [← Condition.run_holds _ _ _ f.journal]
      rfl
    unfold Host.guardsHold
    rw [List.all_cons]
    refine (result_bind_ok hlift).trans ?_
    cases verdict fs.customFunctions c (.test t) with
    | true => exact ih hrest _
    | false => rfl

/-- A validator that makes a field required finds an error where its guards hold and the field is empty. -/
theorem validate_required {w : CompiledValidator} (htype : w.config.type = .builtin .required)
    (hsource : w.source = .builtin .required) (hgs : ∀ g ∈ w.config.guards, ∃ t, g = .test t) (f : Form) :
    result (w.validate (hostAt fs field) c) f =
      .ok (if w.config.guards.all (verdict fs.customFunctions c) && c.current.isEmpty
        then some (w.config.error c [] .null) else none) := by
  have hguards := guardsHold_tests fs field c hgs f
  have hcheck (g : Form) : result (w.check (hostAt fs field) c).run g =
      .ok (.ok (if c.current.isEmpty then some (w.config.error c [] .null) else none)) := by
    have rest (bound : Value) (g : Form) : result (do
        let params ← ExceptT.mk ((hostAt fs field).lift (Builtin.required.check c.current bound).run)
        return params.map fun ps => w.config.error c ps .null : ExceptT Fault Live _).run g =
          .ok (.ok (if c.current.isEmpty then some (w.config.error c [] .null) else none)) := by
      cases h : c.current.isEmpty <;> simp only [Builtin.check, h] <;> rfl
    unfold CompiledValidator.check
    rw [hsource]
    dsimp only
    split
    · exact rest w.config.value g
    · exact rest _ _
  have hlast {x : Live (Outcome (Option ValidationError))} {o : Option ValidationError} {g : Form}
      (hx : result x g = .ok (.ok o)) : result (do
        match ← x with
        | .ok e => return e
        | .error _ =>
          (hostAt fs field).lift (Journal.report .validatorFailed)
          return none) g = .ok o := result_bind_ok hx
  unfold CompiledValidator.validate
  rw [htype]
  refine (result_bind_ok hguards).trans ?_
  cases w.config.guards.all (verdict fs.customFunctions c) with
  | true => exact hlast (hcheck _)
  | false => rfl

/-- A built-in rule finds errors of the kind of its validator. -/
theorem error_of_builtin {w : CompiledValidator} {b : Builtin} {e : ValidationError} {f : Form}
    (hsource : w.source = .builtin b) (he : result (w.validate (hostAt fs field) c) f = .ok (some e)) :
    ∃ params, e = w.config.error c params .null := by
  have rest {bound : Value} {g : Form} (h : result (do
      let params ← ExceptT.mk ((hostAt fs field).lift (b.check c.current bound).run)
      return params.map fun ps => w.config.error c ps .null : ExceptT Fault Live _).run g = .ok (.ok (some e))) :
      ∃ params, e = w.config.error c params .null := by
    rw [ExceptT.run_bind] at h
    obtain ⟨o, -, h, -⟩ := of_result_bind h
    cases o with
    | error _ => cases h
    | ok params =>
      obtain ⟨params, -, hparams⟩ := Option.map_eq_some_iff.mp (Except.ok.inj (Except.ok.inj h))
      exact ⟨params, hparams.symm⟩
  unfold CompiledValidator.validate at he
  split at he
  · cases he
  obtain ⟨held, -, he, -⟩ := of_result_bind he
  split at he
  · cases he
  obtain ⟨o, ho, he, -⟩ := of_result_bind he
  cases o with
  | error _ =>
    obtain ⟨_, -, he, -⟩ := of_result_bind he
    cases he
  | ok found =>
    obtain rfl : found = some e := Except.ok.inj he
    unfold CompiledValidator.check at ho
    rw [hsource] at ho
    dsimp only at ho
    split at ho
    · exact rest ho
    · rw [ExceptT.run_bind] at ho
      obtain ⟨bound, -, ho, -⟩ := of_result_bind ho
      cases bound with
      | error _ => cases ho
      | ok bound => exact rest ho

end

end Live
end FormRules
