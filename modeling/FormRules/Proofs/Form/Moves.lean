import FormRules.Proofs.Form.Calls

/-!
# Computations that leave the value alone

Logic states and their watchers, validators and checks, and the jobs of derivations take a form along
`Move`s, too.
-/

namespace FormRules.Live
open Relation
variable {α : Type} {f : Form}

theorem rules_moves (root : Value) : Follows Move (rules root) := .get_bind fun _ => ofChecking_moves _ _

/-! ## Logic states and their watchers -/

section
variable {notify : Source → Live Unit} (hn : ∀ s, Follows Move (notify s))
include hn

theorem allHoldAt_moves (field : List Key) (cs : List Condition) :
    Follows Move (allHoldAt notify field cs) := by
  induction cs with
  | nil => exact .pure true
  | cons c cs ih =>
    refine .get_bind fun f => (holdsAt_moves hn none c f.value field f).bind fun b _ => ?_
    split
    · exact ih _
    · exact .of_eq rfl

theorem anyRuleHolds_moves (field : List Key) (rs : List LogicRule) :
    Follows Move (anyRuleHolds notify field rs) := by
  induction rs with
  | nil => exact .pure false
  | cons r rs ih =>
    have rest (b : Bool) : Follows Move (if b = true then pure true else anyRuleHolds notify field rs) := by
      split
      · exact .pure true
      · exact ih
    refine (allHoldAt_moves hn field r.guards).bind fun guarded => ?_
    dsimp only
    split
    · exact .get_bind fun f => (holdsAt_moves hn _ _ _ _ f).bind fun b _ => rest b _
    · exact rest false

theorem logicState_moves (logic : String) (field : List Key) : Follows Move (logicState notify logic field) :=
  (track_moves _).bind fun _ => .get_bind fun f =>
    (rules_moves f.value f).bind fun _ _ => anyRuleHolds_moves hn field _ _

theorem refresh_moves (n : Nat) : Follows Move (refresh notify n) := by
  refine .get_bind fun f => ?_
  cases f.watchers[n]? with
  | none => exact .of_eq rfl
  | some w =>
    refine (watching_moves (logicState_moves hn w.logic w.field) f).bind fun r _ => ?_
    refine .bind (noted_of_eq rfl) fun _ _ => .bind (.of_eq rfl) fun _ _ => ?_
    exact .bind (noted_of_eq rfl) fun _ _ => .of_eq rfl

theorem markStale_moves (n : Nat) : Follows Move (markStale notify n) := by
  refine .get_bind fun f => ?_
  cases f.watchers[n]? with
  | none => exact .of_eq rfl
  | some w =>
    dsimp only
    split
    · exact .of_eq rfl
    refine .bind (noted_of_eq rfl) fun _ _ => ?_
    split
    · exact .of_eq rfl
    refine (refresh_moves hn n _).bind fun state _ => ?_
    split
    · exact .of_eq rfl
    refine .bind (.of_eq rfl) fun told _ => ?_
    exact (Follows.forIn fun _ _ _ => (tell_moves _ _).bind fun _ => .pure _).bind (fun _ => .pure _) _

end

theorem notifyWithin_moves (fuel : Nat) (s : Source) : Follows Move (notifyWithin fuel s) := by
  induction fuel generalizing s with
  | zero => exact .pure ()
  | succ fuel ih =>
    refine .bind (.of_eq fun _ => rfl) fun ns => ?_
    exact (Follows.forIn fun n _ _ => (markStale_moves ih n).bind fun _ => .pure _).bind fun _ => .pure _

theorem notify_moves (s : Source) : Follows Move (notify s) := .get_bind fun _ => notifyWithin_moves _ s _

theorem readWatcher_moves (n : Nat) : Follows Move (readWatcher n) := by
  refine .get_bind fun f => ?_
  cases f.watchers[n]? with
  | none => exact .of_eq rfl
  | some w =>
    dsimp only
    split
    · exact refresh_moves notify_moves n _
    · exact .of_eq rfl

theorem watcherOf_moves (logic : String) (field : List Key) : Follows Move (watcherOf logic field) := by
  refine .get_bind fun f => ?_
  split
  · exact .of_eq rfl
  · exact noted_of_eq rfl

/-! ## Validators -/

theorem isKnown_moves (b : Bound Validator) : Follows Move (isKnown b) := by
  refine (compileValidator_moves b.rule).attempt.bind fun o => ?_
  split
  · exact .pure true
  · exact (report_moves _).bind fun _ => .pure false
  · exact .throw _

theorem validators_moves (root : Value) : Follows Move (validators root) :=
  (rules_moves root).bind fun _ => (Follows.filterM isKnown_moves).bind fun _ => .pure _

theorem splitValidators_moves (root : Value) : Follows Move (splitValidators root) :=
  (validators_moves root).bind fun _ => .of_eq fun _ => rfl

theorem fieldValidators_moves (field : List Key) : Follows Move (fieldValidators field) :=
  .get_bind fun f => (splitValidators_moves f.value f).bind fun _ _ => .of_eq rfl

/-- What is asked of a host takes the form along moves. -/
structure Quiet (h : Host Live) : Prop where
  lift : ∀ {α : Type} (x : Reporting α), Follows Move (h.lift x)
  inquire : ∀ i c, Follows Move (h.inquire i c)
  valueOf : ∀ e c, Follows Move (h.valueOf e c)

theorem hostAt_quiet (fs : Functions) (field : List Key) : Quiet (hostAt fs field) where
  lift := ofReporting_moves
  inquire i _ := unwatched_moves (.get_bind fun f =>
    holdsAt_moves notify_moves none (.inquiry i) f.value field f)
  valueOf := valueOf_moves

section
variable {h : Host Live} (hh : Quiet h) (c : Context)
include hh

theorem guardsHold_moves (gs : List Condition) : Follows Move (h.guardsHold c gs) := by
  induction gs with
  | nil => exact .pure true
  | cons g gs ih =>
    have rest (b : Bool) : Follows Move (if b = true then h.guardsHold c gs else pure false) := by
      split
      · exact ih
      · exact .pure false
    cases g with
    | test t => exact (hh.lift _).bind rest
    | inquiry i => exact (hh.inquire i c).bind rest

theorem errorParams_moves (es : Entries) : Follows Move (h.errorParams c es) := by
  induction es with
  | nil => exact .pure []
  | cons e es ih => exact (hh.valueOf _ c).bind fun _ => ih.bind fun _ => .pure _

theorem check_moves (v : CompiledValidator) : Follows Move (v.check h c).run := by
  unfold CompiledValidator.check
  cases v.source with
  | builtin b =>
    have rest (bound : Value) : Follows Move (do
        let params ← ExceptT.mk (h.lift (b.check c.current bound).run)
        return params.map fun ps => v.config.error c ps .null : ExceptT Fault Live _).run :=
      .run_bind (hh.lift _) fun _ => .run_pure _
    dsimp only
    split
    · exact rest _
    · exact .run_bind (.run_lift (hh.valueOf _ c)) rest
  | expression =>
    refine .run_bind (.ofOutcome _) fun w => ?_
    split
    · exact .run_pure none
    · exact .run_bind (.run_lift (errorParams_moves hh c _)) fun _ => .run_pure _
  | function f =>
    refine .run_bind (.ofOutcome _) fun w => ?_
    split
    · exact .run_pure none
    · exact .run_bind (.run_lift (errorParams_moves hh c _)) fun _ => .run_pure _
  | async f => exact .run_pure none
  | remote f => exact .run_pure none

theorem validate_moves (v : CompiledValidator) : Follows Move (v.validate h c) := by
  unfold CompiledValidator.validate
  split
  · exact .pure none
  refine (guardsHold_moves hh c _).bind fun b => ?_
  split
  · exact .pure none
  refine (check_moves hh c v).bind fun o => ?_
  cases o with
  | ok e => exact .pure e
  | error e => exact (hh.lift _).bind fun _ => .pure none

theorem conclude_moves (v : CompiledValidator) (w : Outcome Verdict) : Follows Move (v.conclude h c w) := by
  cases w with
  | ok w => exact .pure _
  | error e => exact (hh.lift _).bind fun _ => .pure none

theorem failed_moves (v : CompiledValidator) (o : LookupOutcome) (e : Fault) :
    Follows Move (v.failed h c o e) := by
  unfold CompiledValidator.failed
  split
  · exact conclude_moves hh c v _
  · exact (hh.lift _).bind fun _ => .pure none

theorem finish_moves (v : CompiledValidator) (o : Outcome Value) : Follows Move (v.finish h c o) := by
  unfold CompiledValidator.finish
  split
  · split
    · exact conclude_moves hh c v _
    · exact failed_moves hh c v _ _
  · split
    · exact conclude_moves hh c v _
    · exact failed_moves hh c v _ _
  · exact .pure none

variable {send : Option (Value → Live (Reply Value))} (hs : ∀ ask ∈ send, ∀ v, Follows Move (ask v))
include hs

omit hh in
theorem checkAsk_moves (request : Value) : Follows Move (CompiledValidator.ask send request).run := by
  unfold CompiledValidator.ask
  cases send with
  | none => exact .of_eq fun _ => rfl
  | some ask => exact .run_bind (.ofOutcome _) fun v => .run_lift (hs ask rfl v)

theorem checkCall_moves (v : CompiledValidator) : Follows Move (v.call h c send) := by
  unfold CompiledValidator.call
  split
  · split
    · exact .pure _
    · exact (failed_moves hh c v _ _).bind fun _ => .pure _
  · split
    · exact (failed_moves hh c v _ _).bind fun _ => .pure _
    · exact .pure _
    · refine (checkAsk_moves hs _).bind fun o => ?_
      split
      · exact .pure _
      · exact (failed_moves hh c v _ _).bind fun _ => .pure _
  · exact .pure _

theorem start_moves (v : CompiledValidator) : Follows Move (v.start h c send) := by
  unfold CompiledValidator.start
  split
  · exact (validate_moves hh c v).bind fun _ => .pure _
  refine (guardsHold_moves hh c _).bind fun b => ?_
  split
  · exact .pure _
  · exact checkCall_moves hh c hs v

end

/-! ## Checks -/

theorem currentContext_moves (field : List Key) : Follows Move (currentContext field) :=
  (track_moves _).bind fun _ => unwatched_moves (.get_bind fun f => fieldContext_moves f.value field f)

theorem snapshotContext_moves (root : Value) (field : List Key) : Follows Move (snapshotContext root field) :=
  (track_moves _).bind fun _ => .of_eq fun _ => rfl

theorem checkIn_moves {context : List Key → Live Context} (hc : ∀ field, Follows Move (context field)) (path : String)
    (v : Validator) : Follows Move (checkIn context path v) :=
  (compileValidator_moves v).bind fun w => .bind (.of_eq fun _ => rfl) fun field => (hc field).bind fun c =>
    .get_bind fun f => validate_moves (hostAt_quiet f.functions field) c w f

theorem checkNow_moves (root : Value) : Follows Move (checkNow root) :=
  (splitValidators_moves root).bind fun _ =>
    (Follows.mapM fun _ => checkIn_moves currentContext_moves _ _).bind fun _ =>
      (Follows.mapM fun _ => checkIn_moves (snapshotContext_moves root) _ _).bind fun _ => .pure _

theorem validateNow_moves : Follows Move validate :=
  .get_bind fun f => unwatched_moves (checkNow_moves f.value) f

theorem endCheck_moves (n : Nat) (e : Option ValidationError) : Follows Move (endCheck n e) :=
  fun _ => noted_of_eq rfl

theorem send_moves {v : Service} (hv : f.service = some v) (request : Value) :
    FollowsFrom Move f (send v request) := .single (.aside (.served hv rfl))

theorem forward_moves (request : Value) : Follows Move (forward request) := by
  refine .get_bind fun f => ?_
  cases hv : f.service with
  | none => exact .of_eq rfl
  | some v => exact send_moves hv request

theorem checkStart_moves (n : Nat) : Follows Move (checkStart n) := by
  refine .get_bind fun f => ?_
  cases f.checks[n]? with
  | none => exact .of_eq rfl
  | some check =>
    have asks : ∀ ask ∈ f.service.map fun _ => forward, ∀ v, Follows Move (ask v) := by
      intro ask h
      obtain ⟨_, _, rfl⟩ := Option.map_eq_some_iff.mp h
      exact forward_moves
    refine (start_moves (hostAt_quiet _ _) _ asks _).bind (fun o => ?_) f
    cases o with
    | finished e => exact endCheck_moves n e
    | waiting r => exact (schedule_moves _ rfl fun _ => rfl).bind fun _ => .pure ()

theorem checkReply_moves (n : Nat) (o : Outcome Value) : Follows Move (checkReply n o) := by
  refine .get_bind fun f => ?_
  cases f.checks[n]? with
  | none => exact .of_eq rfl
  | some check => exact (finish_moves (hostAt_quiet _ _) _ _ o).bind (fun e => endCheck_moves n e) f

theorem scheduleChecks_moves (root : Value) : Follows Move (scheduleChecks root) := by
  refine (validators_moves root).bind fun vs => .forM fun b _ => (compileValidator_moves b.2).bind fun w => ?_
  split
  · exact .pure ()
  refine .bind (.of_eq fun _ => rfl) fun field => .get_bind fun f => ?_
  exact .bind (noted_of_eq rfl) fun _ _ => (schedule_moves 0 rfl fun _ => rfl).bind (fun _ => .pure ()) _

/-! ## Derivations whose values come later -/

theorem putStream_moves {n : Nat} {s t : Stream} (h : f.streams[n]? = some s)
    (ht : t.lane.timer = none ∨ t.lane.timer = s.lane.timer) : FollowsFrom Move f (putStream n t) :=
  .single (.aside (.streamPut h ht))

theorem streamEnded_moves (n job : Nat) : Follows Move (streamEnded n job) := by
  refine .get_bind fun f => ?_
  cases h : f.streams[n]? with
  | none => exact .of_eq rfl
  | some s =>
    have ht : (s.finish job).1.lane.timer = s.lane.timer := rfl
    exact (putStream_moves h (.inr ht)).bind fun _ _ => .pure (s.finish job).2

theorem streamFailed_moves (n job : Nat) : Follows Move (streamFailed n job) := by
  refine (streamEnded_moves n job).bind fun b => ?_
  split
  · exact report_moves _
  · exact .pure ()

theorem stream_settle_timer (s : Stream) : s.settle.1.lane.timer = none := by
  unfold Stream.settle
  have h := s.lane.settle_timer Stream.sameTrigger
  split <;> next he => rw [he] at h; exact h

theorem streamQuiet_moves (n : Nat) : Follows Move (streamQuiet n) := by
  refine .get_bind fun f => ?_
  cases h : f.streams[n]? with
  | none => exact .of_eq rfl
  | some s =>
    have ht := stream_settle_timer s
    dsimp only
    generalize s.settle = r at ht ⊢
    refine (putStream_moves h (.inl ht)).bind fun _ _ => ?_
    split
    · refine .get_bind ?_
      split
      · exact (schedule_moves 0 rfl fun _ => rfl).bind (fun _ => .pure ()) _
      · exact guarded_moves (streamFailed_moves n _) _
    · exact .of_eq rfl

theorem fire_moves (n : Nat) (root : Value) : Follows Move (fire n root) := by
  refine .get_bind fun f => ?_
  cases h : f.streams[n]? with
  | none => exact .of_eq rfl
  | some s =>
    unfold FollowsFrom
    simp only [after_cancel_bind]
    refine .head (.aside (.streamCancelled h)) ?_
    split
    · exact .single (.aside (.streamTimed n s root _))
    · have h' : (f.withoutTimer s.lane.timer).streams[n]? = some s := by rw [Form.withoutTimer_streams, h]
      exact (putStream_moves h' (.inl rfl)).bind fun _ _ => guarded_moves (streamQuiet_moves n) _

theorem notifyStreams_moves (previous current : Value) : Follows Move (notifyStreams previous current) := by
  refine .get_bind fun f => (Follows.forIn fun n _ _ => .get_bind fun g => ?_).bind (fun _ => .pure ()) f
  cases g.streams[n]? with
  | none => exact .of_eq rfl
  | some s =>
    refine .bind (.of_eq rfl) fun b _ => ?_
    split
    · exact (fire_moves n current).bind (fun _ => .pure _) _
    · exact .of_eq rfl

theorem askStream_moves (d : Derivation) (c : Context) : Follows Move (askStream d c) := by
  refine .get_bind fun f => (ofReporting_moves _ f).bind fun b _ => ?_
  split
  · exact .of_eq rfl
  cases d.source with
  | http request e =>
    dsimp only
    cases hv : f.service with
    | none => exact .of_eq rfl
    | some v => exact .bind (.of_eq rfl) fun r _ => .map (send_moves (by exact hv) r) some
  | asyncFunction name => exact .bind (.of_eq rfl) fun g _ => .pure (some (g c))
  | _ => exact .of_eq rfl

theorem targetContext_moves (d : Derivation) (root : Value) : Follows Move (targetContext d root) :=
  (track_moves _).bind fun _ => (Follows.ofOutcome _).bind fun _ => .get_bind fun _ => .pure _

theorem streamStart_moves (n job : Nat) (t : Trigger) : Follows Move (streamStart n job t) := by
  refine .get_bind fun f => ?_
  cases h : f.streams[n]? with
  | none => exact .of_eq rfl
  | some s =>
    refine (Follows.attempt ((targetContext_moves _ _).bind fun c =>
      (askStream_moves _ c).bind fun _ => .pure _)).bind (fun o => ?_) f
    split
    · exact (schedule_moves _ rfl fun _ => rfl).bind fun _ => .pure ()
    · exact (streamEnded_moves n job).bind fun _ => .pure ()
    · exact streamFailed_moves n job

end FormRules.Live
