import FormRules.Proofs.Form.Moves

/-!
# Operations

Updates, tasks and attachments take a form along `Turn`s, and so does every operation. A property that
a fresh form has and every `Turn` keeps is therefore one of every reachable form.
-/

namespace FormRules

/-- Steps of updates: moves, and writes of the value. -/
inductive Write : Form → Form → Prop
  | move {f g : Form} (h : Move f g) : Write f g
  | wrote {f : Form} (v : Value) : Write f { f with value := v, version := f.version + 1 }

theorem Write.turn {f g : Form} (h : Write f g) : Turn f g := by
  cases h with
  | move h => exact .move h
  | wrote v => exact .wrote v

namespace Live
open Relation
variable {α : Type} {f : Form}

theorem Follows.turns {x : Live α} (h : Follows Move x) : Follows Turn x := h.mono fun _ _ => .move

theorem FollowsFrom.turns {x : Live α} (h : FollowsFrom Move f x) : FollowsFrom Turn f x :=
  h.mono fun _ _ => .move

/-! ## Updates -/

theorem Follows.writes {x : Live α} (h : Follows Move x) : Follows Write x := h.mono fun _ _ => .move

/-- Telling watchers and subscribers of a value, and taking what they answer with. -/
theorem telling_follows {M : Form → Form → Prop} (hn : Follows M (notify .value))
    (ht : ∀ tag v, Follows M (tell tag v)) (hf : Follows M (report .subscriberFailed)) {react : Update → Live Unit}
    {ss : List Subscriber} {v : Value} (hr : ∀ s ∈ ss, ∀ u ∈ s.react v, Follows M (react u)) :
    Follows M (do
      notify .value
      for s in ss do
        guarded do
          tell s.tag v
          (s.react v).forM react) := by
  refine hn.bind fun _ => (Follows.forIn fun s hs _ => .bind ?_ fun _ => .pure _).bind fun _ => .pure ()
  refine Follows.tryCatch ?_ fun _ => hf
  exact (ht _ _).bind fun _ => .forM fun u hu => hr s hs u hu

theorem tellAll_follows {M : Form → Form → Prop} (hm : ∀ f g, Move f g → M f g) {react : Update → Live Unit}
    {ss : List Subscriber} {v : Value} (hr : ∀ s ∈ ss, ∀ u ∈ s.react v, Follows M (react u)) :
    Follows M (do
      notify .value
      for s in ss do
        guarded do
          tell s.tag v
          (s.react v).forM react) :=
  telling_follows ((notify_moves _).mono hm) (fun _ _ => (tell_moves _ _).mono hm) ((report_moves _).mono hm) hr

theorem derive_moves (root : Value) : Follows Move (derive root) := .get_bind fun _ => ofChecking_moves _ _

theorem writeValue_writes {react : Update → Live Unit} (hr : ∀ u, Follows Write (react u)) (wroteNaN : Bool)
    (v : Value) : Follows Write (writeValue react wroteNaN v) := by
  refine .get_bind fun f => ?_
  split
  · exact .of_eq rfl
  exact .bind (.single (.wrote v)) fun _ _ => tellAll_follows (fun _ _ => .move) (fun _ _ u _ => hr u) _

/-- What is done with an update that a subscriber answers with. -/
def reactWithin : (fuel : Nat) → Update → Live Unit
  | 0, _ => return
  | fuel + 1, u => do let _ ← commitWithin fuel u.writesNaN (← ofOutcome (u.apply (← get).value))

theorem commitWithin_eq (fuel : Nat) (wroteNaN : Bool) (v : Value) : commitWithin fuel wroteNaN v = do
    let f ← get
    let r ← derive v
    writeValue (reactWithin fuel) (wroteNaN || r.wroteNaN) r.value
    notifyStreams f.value r.value
    return r := by
  cases fuel <;> rfl

theorem commitWithin_writes_of {fuel : Nat} (hr : ∀ u, Follows Write (reactWithin fuel u)) (wroteNaN : Bool)
    (v : Value) : Follows Write (commitWithin fuel wroteNaN v) := by
  rw [commitWithin_eq]
  refine .get_bind fun f => (derive_moves v).writes.bind (fun r => ?_) f
  exact (writeValue_writes hr _ _).bind fun _ => (notifyStreams_moves _ _).writes.bind fun _ => .pure r

theorem reactWithin_writes (fuel : Nat) (u : Update) : Follows Write (reactWithin fuel u) := by
  induction fuel generalizing u with
  | zero => exact .pure ()
  | succ fuel ih =>
    refine .get_bind fun g => .bind (.of_eq rfl) fun w _ => ?_
    exact (commitWithin_writes_of ih _ w).bind (fun _ => .pure ()) _

theorem commit_writes (wroteNaN : Bool) (v : Value) : Follows Write (commit wroteNaN v) :=
  commitWithin_writes_of (reactWithin_writes _) wroteNaN v

theorem commit_turns (wroteNaN : Bool) (v : Value) : Follows Turn (commit wroteNaN v) :=
  (commit_writes wroteNaN v).mono fun _ _ => Write.turn

theorem update_turns (u : Update) : Follows Turn (update u) :=
  .get_bind fun _ => .bind (.of_eq rfl) fun _ _ => commit_turns _ _ _

theorem applyDerived_turns (target : String) (v : Value) : Follows Turn (applyDerived target v) := by
  refine (Follows.ofOutcome _).bind fun keys => .get_bind fun f => ?_
  split
  · exact .of_eq rfl
  · exact (update_turns _).bind (fun _ => .pure ()) f

theorem streamReply_turns (n job : Nat) (c : Context) (o : Outcome Value) :
    Follows Turn (streamReply n job c o) := by
  refine .get_bind fun f => ?_
  cases f.streams[n]? with
  | none => exact .of_eq rfl
  | some s =>
    dsimp only
    split
    · refine (streamEnded_moves n job).turns.bind (fun b => ?_) f
      split
      · exact applyDerived_turns _ _
      · exact .pure ()
    · exact (streamFailed_moves n job).turns f

theorem Stream.timer_of_ofDerivation {d : Derivation} {s : Stream} (h : Stream.ofDerivation d = .ok s) :
    s.lane.timer = none := by
  unfold Stream.ofDerivation at h
  cases hd : d.dependencies with
  | error e => rw [hd] at h; cases h
  | ok reads => rw [hd] at h; cases h; rfl

theorem addDerivation_turns (d : Derivation) : Follows Turn (addDerivation d) := by
  refine .get_bind fun f => .bind (.of_eq rfl) fun derivations _ => ?_
  refine .bind (.single (.adjusted derivations f.external f.subscribers f.hasLoop)) fun _ _ => ?_
  cases d.isAsync with
  | false =>
    simp only [Bool.false_eq_true, if_false]
    exact .get_bind ((commit_turns _ _).bind (fun r => .pure r) _)
  | true =>
    simp only [if_true]
    refine .bind (.of_eq rfl) fun s hs => ?_
    refine .bind (.single (.streamed s (Stream.timer_of_ofDerivation hs))) fun _ _ => .get_bind ?_
    refine (commit_turns _ _).bind (fun r => .get_bind fun g => .get_bind ?_) _
    exact (fire_moves _ _).turns.bind (fun _ => .pure r) g

theorem setExternal_turns (v : Value) : Follows Turn (setExternal v) := by
  refine .get_bind fun f => ?_
  split
  · exact .of_eq rfl
  · refine .bind (.single (.adjusted f.derivations v f.subscribers f.hasLoop)) fun _ _ => ?_
    exact (notify_moves _).turns _

/-! ## Attachments -/

theorem addValidator_turns (path : String) (v : Validator) : Follows Turn (addValidator path v) := by
  refine (Follows.ofOutcome _).bind fun keys f => ?_
  refine ((compileValidator_moves v).turns f).bind fun w hw => .get_bind (.bind (.of_eq rfl) fun _ _ => ?_)
  obtain ⟨e, -, he, -⟩ | ⟨w, d, -, hv, -, hafter⟩ := compileValidator_cases v f
  · exact absurd (hw.symm.trans he) nofun
  · refine .single (.attached (.validator ?_))
    show (after (compileValidator v) f).compiled.Has v
    rwa [hafter]

theorem addLogic_turns (path : String) (r : LogicRule) : Follows Turn (addLogic path r) :=
  (compile_moves _ _).turns.bind fun _ => (Follows.ofOutcome _).bind fun _ _ => .single (.attached (.logic _))

theorem applySchema_turns (path : String) (a : SchemaApplication) : Follows Turn (applySchema path a) := by
  refine .get_bind fun f => .bind ?_ fun u hu => .bind (.of_eq rfl) fun keys _ => ?_
  · exact (Follows.forM fun v _ => (compileValidator_moves v).turns.bind fun _ => .pure ()) f
  · obtain ⟨d, hd, -, hall⟩ := compileAll_cases (f.rulebook.validatorsWithin a) f
    unfold FollowsFrom
    rw [after_ofOutcome, hd]
    exact .single (.attached (.application (hall hu)))

/-! ## Tasks -/

theorem lapsed_turns {a : Appointment Task} {t : Schedule Task} {k : SlotKey} (ht : f.schedule.Takes a t)
    (ha : a.task.slot? = some k) (hs : Table.get? f.slots k = none) : ReflTransGen Turn f (f.onSchedule t) :=
  .single (.move (.lapsed ht ha hs))

theorem runTask_turns {a : Appointment Task} {t : Schedule Task} (ht : f.schedule.Takes a t) :
    ReflTransGen Turn f (after (runTask a.task) (f.onSchedule t)) := by
  have taken (h : a.task.slot? = none) (hk : ∀ k, a.task = .testQuiet k → Table.get? f.delayed k = none) :
      ReflTransGen Turn f (f.onSchedule t) := .single (.move (.aside (.taken ht h hk)))
  have moves {g : Form} (h : ReflTransGen Move f g) : ReflTransGen Turn f g :=
    ReflTransGen.mono (fun _ _ => .move) _ _ h
  cases ha : a.task with
  | inquiryQuiet k =>
    cases hs : Table.get? f.slots k with
    | none =>
      unfold runTask inquiryQuiet
      rw [after_slot?_bind, show Table.get? (f.onSchedule t).slots k = none from hs]
      exact lapsed_turns ht (by rw [ha]; rfl) hs
    | some s => exact moves (after_inquiryQuiet notify_moves hs (.single (.quietOver ht ha hs)))
  | inquiryStart k job => exact moves (inquiryStart_moves notify_moves ht ha)
  | inquiryReply k job r =>
    cases hs : Table.get? f.slots k with
    | none =>
      unfold runTask inquiryEnded
      rw [after_slot?_bind, show Table.get? (f.onSchedule t).slots k = none from hs]
      exact lapsed_turns ht (by rw [ha]; rfl) hs
    | some s => exact moves (after_inquiryEnded notify_moves hs (.single (.replied ht ha hs)))
  | testQuiet k =>
    cases hd : Table.get? f.delayed k with
    | none =>
      unfold runTask testQuiet
      rw [after_get_bind, show Table.get? (f.onSchedule t).delayed k = none from hd]
      exact taken (by rw [ha]; rfl) fun j hj => by rw [ha] at hj; cases hj; exact hd
    | some d =>
      exact moves (after_testQuiet notify_moves (f := f.onSchedule t) hd (.single (.aside (.testSettled ht ha hd))))
  | streamQuiet n => exact (taken (by rw [ha]; rfl) (by rw [ha]; nofun)).trans ((streamQuiet_moves n).turns _)
  | streamStart n job t => exact (taken (by rw [ha]; rfl) (by rw [ha]; nofun)).trans ((streamStart_moves n job t).turns _)
  | streamReply n job c o => exact (taken (by rw [ha]; rfl) (by rw [ha]; nofun)).trans (streamReply_turns n job c o _)
  | checkStart n => exact (taken (by rw [ha]; rfl) (by rw [ha]; nofun)).trans ((checkStart_moves n).turns _)
  | checkReply n o => exact (taken (by rw [ha]; rfl) (by rw [ha]; nofun)).trans ((checkReply_moves n o).turns _)

/-- A fault of a task ends that task only. -/
theorem attemptTask_turns {a : Appointment Task} {t : Schedule Task} (ht : f.schedule.Takes a t) (x : α) :
    FollowsFrom Turn f (do set (f.onSchedule t); let _ ← attempt (runTask a.task); return x) := by
  unfold FollowsFrom
  rw [after_set_bind, after_bind_eq fun _ _ => rfl, after_attempt]
  exact runTask_turns ht

theorem step_turns (limit : Option Int) : Follows Turn (step limit) := by
  refine .get_bind fun f => ?_
  cases h : f.schedule.next? limit with
  | none => exact .of_eq rfl
  | some r => exact attemptTask_turns (Schedule.takes_of_next? (a := r.1) (t := r.2) h) _

theorem fireTask_turns (n : Nat) : Follows Turn (fireTask n) := by
  refine .get_bind fun f => ?_
  cases h : f.schedule.take? n with
  | none => exact .of_eq rfl
  | some r => exact attemptTask_turns (Schedule.takes_of_take? (a := r.1) (t := r.2) h) _

theorem runUntil_turns (isDone : Form → Bool) (limit : Option Int) (fuel : Nat) :
    Follows Turn (runUntil isDone limit fuel) := by
  induction fuel with
  | zero => exact .pure ()
  | succ fuel ih =>
    refine .get_bind fun f => ?_
    split
    · exact .of_eq rfl
    refine (step_turns limit).bind (fun b => ?_) f
    split
    · exact ih
    · exact .pure ()

theorem tick_turns {now : Int} (h : f.schedule.now ≤ now) :
    ReflTransGen Turn f (f.onSchedule { f.schedule with now }) := .single (.move (.aside (.ticked h)))

theorem advanceTo_turns (moment : Int) : Follows Turn (advanceTo moment) :=
  (runUntil_turns _ _ _).bind fun _ f => tick_turns (le_max_left f.schedule.now moment)

theorem advance_turns (ms : Int) : Follows Turn (advance ms) := .get_bind fun _ => advanceTo_turns _ _

theorem settle_turns : Follows Turn settle := by
  refine .get_bind fun f => (advanceTo_turns _).bind (fun _ => .get_bind fun g => ?_) f
  refine (advanceTo_turns _).bind (fun _ => ?_) g
  split
  · exact .throw _
  · exact .pure ()

theorem validateAsync_turns : Follows Turn validateAsync := by
  refine .get_bind fun f => (unwatched_moves (checkNow_moves f.value)).turns.bind (fun first => ?_) f
  refine (scheduleChecks_moves _).turns.bind fun _ => (runUntil_turns _ _ _).bind fun _ => .get_bind fun g => ?_
  exact .bind (.turns (noted_of_eq rfl)) fun _ _ => .pure _

/-! ## Operations -/

theorem perform_turns (o : Operation) (ho : ∀ s, o ≠ .registerSchema s) : Follows Turn (perform o) := by
  have drop {α : Type} {x : Live α} (h : Follows Turn x) : Follows Turn (do let _ ← x) :=
    h.bind fun _ => .pure ()
  cases o with
  | update u => exact drop (update_turns u)
  | derive d => exact drop (addDerivation_turns d)
  | provide v => exact setExternal_turns v
  | attachValidator path v => exact addValidator_turns path v
  | attachLogic path r => exact addLogic_turns path r
  | applySchema path a => exact applySchema_turns path a
  | registerSchema s => exact absurd rfl (ho s)
  | subscribe s => exact fun f => .single (.adjusted f.derivations f.external _ f.hasLoop)
  | watch logic field => exact drop (watcherOf_moves logic field).turns
  | listen n => exact Follows.turns fun _ => noted_of_eq rfl
  | readWatcher n => exact drop (readWatcher_moves n).turns
  | compile ms c => exact drop (compile_moves ms c).turns
  | compileValue e => exact Follows.turns fun f => .single (.compiled (.value e))
  | call n root field =>
    refine fun f => (functionAt_moves n f).turns.bind fun l h => ?_
    obtain ⟨hl, hf⟩ := mem_of_functionAt h
    rw [hf]
    exact (call_moves notify_moves hl root field).turns.bind fun _ _ => .pure ()
  | evaluate ms c field =>
    exact .get_bind fun f => drop (holdsAt_moves notify_moves ms c f.value field).turns f
  | readState logic field => exact drop (logicState_moves notify_moves logic field).turns
  | readValidators field => exact drop (fieldValidators_moves field).turns
  | validate => exact drop validateNow_moves.turns
  | validateAsync => exact drop validateAsync_turns
  | advance ms => exact advance_turns ms
  | settle => exact settle_turns
  | wait ms => exact fun f => tick_turns (le_max_left _ _)
  | fire n => exact fireTask_turns n
  | setLoop b => exact fun f => .single (.adjusted f.derivations f.external f.subscribers b)
  | takeRequests =>
    refine Follows.turns fun f => ?_
    show ReflTransGen Move f f.takeRequests.2
    unfold Form.takeRequests
    cases hv : f.service with
    | none => exact .refl
    | some v => exact .single (.aside (.served hv rfl))
  | takeReports => exact Follows.turns fun _ => noted_of_eq rfl

end Live

namespace Form

/-! ## Fresh forms -/

namespace IsFresh
variable {f : Form} (h : f.IsFresh)
include h

theorem slots : f.slots = [] := congrArg Form.slots h

theorem history : f.history = [] := congrArg Form.history h

theorem pending : f.schedule.pending = [] := congrArg (·.schedule.pending) h

theorem delayed : f.delayed = [] := congrArg Form.delayed h

theorem tests : f.tests = [] := congrArg Form.tests h

theorem streams : f.streams = [] := congrArg Form.streams h

theorem compiled : f.compiled = {} := congrArg Form.compiled h

theorem answers : f.answers.entries = [] := congrArg (·.answers.entries) h

theorem validators : f.rulebook.validators = [] := congrArg (·.rulebook.validators) h

theorem applications : f.rulebook.applications = [] := congrArg (·.rulebook.applications) h

end IsFresh

/-! ## Reachable forms -/

/-- What holds of fresh forms, is kept by every step and where a schema is registered holds of every form that
can be reached. -/
theorem Reachable.induct {P : Form → Prop} (fresh : ∀ f, f.IsFresh → P f) (turn : ∀ f g, Turn f g → P f → P g)
    (registered : ∀ f s, P f → P (f.next (.registerSchema s))) {f : Form} (h : f.Reachable) : P f := by
  induction h with
  | fresh h => exact fresh _ h
  | @next f _ o ih =>
    by_cases ho : ∃ s, o = .registerSchema s
    · obtain ⟨s, rfl⟩ := ho
      exact registered f s ih
    · exact (Live.perform_turns o (fun s hs => ho ⟨s, hs⟩) f).keeps turn ih

theorem Reachable.runAll {f : Form} (h : f.Reachable) (os : List Operation) : (f.runAll os).Reachable := by
  induction os generalizing f with
  | nil => exact h
  | cons o os ih => exact ih (h.next o)

end Form
end FormRules
