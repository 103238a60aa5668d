import FormRules.Proofs.Form.Compiled
import FormRules.Proofs.Form.Live
import FormRules.Proofs.Inquiry.Slot

/-!
# Calls of compiled functions

Whatever a call of a compiled condition does to a form, and wherever a fault breaks it off, it takes the
form along `Move`s. So does everything that the inquiries and the tests behind it do in time.
-/

namespace FormRules

namespace Live
open Relation
variable {α : Type} {f : Form}

theorem moves_of_aside {x : Live α} (h : ∀ f, Aside f (after x f)) : Follows Move x :=
  fun f => .single (.aside (h f))

/-- Steps of the bookkeeping. -/
theorem noted_of_eq {g : Form} (h : g = { f with
    journal := g.journal, reading := g.reading, events := g.events, watchers := g.watchers
    checks := g.checks }) : ReflTransGen Move f g := by
  rw [h]
  exact .single (.aside (.noted ..))

theorem ofReporting_moves (x : Reporting α) : Follows Move (ofReporting x) := fun _ => noted_of_eq rfl

theorem report_moves (n : Notice) : Follows Move (report n) := ofReporting_moves _

theorem ofChecking_moves (x : Checking α) : Follows Move (ofChecking x) :=
  (ofReporting_moves _).bind fun _ => .ofOutcome _

theorem track_moves (s : Source) : Follows Move (track s) := fun _ => noted_of_eq rfl

theorem tell_moves (tag : String) (v : Value) : Follows Move (tell tag v) := fun _ => noted_of_eq rfl

theorem guarded_moves {x : Live Unit} (h : Follows Move x) : Follows Move (guarded x) :=
  h.tryCatch fun _ => report_moves _

theorem unwatched_moves {x : Live α} (h : Follows Move x) : Follows Move (unwatched x) := fun f =>
  ((noted_of_eq rfl : ReflTransGen Move f { f with reading := none }).trans (h _)).trans (noted_of_eq rfl)

theorem watching_moves {x : Live α} (h : Follows Move x) : Follows Move (watching x) := fun f =>
  ((noted_of_eq rfl : ReflTransGen Move f { f with reading := some [] }).trans (h _)).trans (noted_of_eq rfl)

theorem schedule_moves (delay : Int) {t : Task} (h : t.slot? = none) (hk : ∀ k, t.isTestQuiet k = false) :
    Follows Move (schedule delay t) := moves_of_aside fun _ => .booked delay h hk

theorem fieldContext_moves (root : Value) (field : List Key) : Follows Move (fieldContext root field) :=
  (track_moves _).bind fun _ => (track_moves _).bind fun _ => .of_eq fun _ => rfl

theorem compile_moves (quietMs : Option Int) (c : Condition) : Follows Move (compile quietMs c) :=
  fun _ => .single (.compiled (.condition quietMs c))

/-- Compiling a validator adds to what has been compiled, or faults and leaves the form as it is. -/
theorem compileValidator_cases (v : Validator) (f : Form) :
    (∃ e, v.compile f.functions = .error e ∧ result (compileValidator v) f = .error e ∧
      after (compileValidator v) f = f) ∨
    ∃ w d, (d = f.compiled ∨ f.compiled.Grows f.functions d) ∧ d.Has v ∧
      result (compileValidator v) f = .ok w ∧ after (compileValidator v) f = { f with compiled := d } := by
  unfold compileValidator
  rw [result_get_bind, after_get_bind]
  obtain ⟨e, he, h⟩ | ⟨w, d, hd, hv, h⟩ := f.compiled.validator_cases f.functions v
  · exact .inl ⟨e, he, by rw [h]; exact ⟨rfl, rfl⟩⟩
  · exact .inr ⟨w, d, hd, hv, by rw [h]; exact ⟨rfl, rfl⟩⟩

theorem compileValidator_moves (v : Validator) : Follows Move (compileValidator v) := by
  intro f
  obtain ⟨e, -, -, hafter⟩ | ⟨w, d, hd, -, -, hafter⟩ := compileValidator_cases v f
  · exact .of_eq hafter
  · obtain rfl | hd := hd
    · exact .of_eq hafter
    · refine .single ?_
      rw [hafter]
      exact .compiled hd

/-- Compiling validators one after the other adds to what has been compiled, and answers for all of them unless one
faults. -/
theorem compileAll_cases (vs : List Validator) (f : Form) :
    let all : Live Unit := vs.forM fun v => do let _ ← compileValidator v
    ∃ d, after all f = { f with compiled := d } ∧ (∀ u, f.compiled.Has u → d.Has u) ∧
      (result all f = .ok () → ∀ v ∈ vs, d.Has v) := by
  induction vs generalizing f with
  | nil => exact ⟨f.compiled, rfl, fun _ h => h, fun _ _ h => nomatch h⟩
  | cons v vs ih =>
    obtain ⟨e, -, he, ha⟩ | ⟨w, c, hc, hv, hw, ha⟩ := compileValidator_cases v f
    · have hresult : result (do let _ ← compileValidator v) f = .error e := result_bind_error he
      have hafter : after (do let _ ← compileValidator v) f = f := (after_bind_error he).trans ha
      refine ⟨f.compiled, (after_bind_error hresult).trans hafter, fun _ h => h, fun hok => ?_⟩
      exact absurd ((result_bind_error hresult).symm.trans hok) nofun
    · have hresult : result (do let _ ← compileValidator v) f = .ok () := result_bind_ok hw
      have hafter : after (do let _ ← compileValidator v) f = { f with compiled := c } := (after_bind_ok hw).trans ha
      obtain ⟨d, hd, hkept, hall⟩ := ih { f with compiled := c }
      refine ⟨d, ?_, fun u hu => hkept u ?_, fun hok => List.forall_mem_cons.mpr ⟨hkept v hv, hall ?_⟩⟩
      · exact ((after_bind_ok hresult).trans (congrArg _ hafter)).trans hd
      · obtain rfl | hc := hc
        · exact hu
        · exact hc.has hu
      · exact ((result_bind_ok hresult).trans (congrArg _ hafter)).symm.trans hok

theorem functionAt_moves (n : Nat) : Follows Move (functionAt n) := by
  refine .get_bind fun f => ?_
  split <;> exact .of_eq rfl

theorem valueOf_moves (e : Value) (c : Context) : Follows Move (valueOf e c) :=
  .bind (fun _ => .single (.compiled (.value e))) fun _ => ofReporting_moves _

theorem testHolds_moves (t : Test) (root : Value) (field : List Key) : Follows Move (testHolds t root field) :=
  (fieldContext_moves root field).bind fun _ => .get_bind fun _ => ofReporting_moves _ _

/-! ## Inquiries -/

section
variable (f : Form) (k : SlotKey)

@[simp] theorem after_putSlot_bind (s : Slot) {x : Unit → Live α} :
    after (putSlot k s >>= x) f = after (x ()) (f.withSlot k s) := rfl

@[simp] theorem after_record_bind (i : Inquiry) (e : InquiryEvent) {x : Unit → Live α} :
    after (record k i e >>= x) f = after (x ()) (f.recorded k i e) := rfl

@[simp] theorem after_recordTest_bind (onTime : Bool) (e : TestEvent) {x : Unit → Live α} :
    after (recordTest k onTime e >>= x) f = after (x ()) (f.testNoted k onTime e) := rfl

@[simp] theorem after_cancel_bind (timer : Option Nat) {x : Unit → Live α} :
    after (cancel timer >>= x) f = after (x ()) (f.withoutTimer timer) := by
  cases timer <;> rfl

theorem after_guarded {x : Live Unit} {g : Form} (h : ReflTransGen Move g (after x f)) :
    ReflTransGen Move g (after (guarded x) f) := by
  unfold guarded
  rw [after, run_tryCatch]
  cases result x f with
  | ok a => exact h
  | error e => exact h.trans (report_moves _ _)

end

section
variable {notify : Source → Live Unit} (hn : ∀ s, Follows Move (notify s)) {k : SlotKey} {s : Slot}
  {f g : Form}
include hn

theorem after_answer {job : InquiryJob} {b : Bool} (hg : ReflTransGen Move g (f.answered k s job b)) :
    ReflTransGen Move g (after (answer notify k s job b) f) := by
  unfold answer
  rw [after_record_bind, after_putSlot_bind]
  split
  · exact hg.trans (hn _ _)
  · exact hg

theorem after_inquiryEnded {job : InquiryJob} {r : Outcome Value} (hs : Table.get? f.slots k = some s)
    (hg : ReflTransGen Move g (f.jobEnded k s job r)) :
    ReflTransGen Move g (after (inquiryEnded notify k job r) f) := by
  unfold inquiryEnded
  simp only [after_slot?_bind, hs, after_record_bind, after_ofReporting_bind, after_putSlot_bind,
    Inquiry.outcome_run]
  unfold Form.jobEnded at hg
  cases hd : (s.finish job.number).2 with
  | false =>
    simp only [hd, Bool.false_eq_true, if_false] at hg
    exact hg.trans (noted_of_eq rfl)
  | true =>
    simp only [hd, if_true] at hg
    rw [if_neg (by decide)]
    cases hj : s.inquiry.judge job.question.context r with
    | ok b =>
      rw [hj] at hg
      rw [after_modify_bind]
      exact after_answer hn (hg.trans (noted_of_eq rfl))
    | error e =>
      rw [hj] at hg
      rw [report, after_ofReporting_bind]
      exact after_answer hn (hg.trans (noted_of_eq rfl))

theorem after_inquiryQuiet (hs : Table.get? f.slots k = some s) (hg : ReflTransGen Move g (f.quietOver k s)) :
    ReflTransGen Move g (after (inquiryQuiet notify k) f) := by
  unfold inquiryQuiet
  simp only [after_slot?_bind, hs, after_putSlot_bind]
  unfold Form.quietOver at hg
  cases ht : s.settle with
  | mk t o =>
  rw [ht] at hg
  cases o with
  | none => exact hg
  | some job =>
    simp only [after_record_bind, after_get_bind]
    dsimp only [Form.jobStarted] at hg
    by_cases hl : f.hasLoop = true
    · rw [if_pos (by exact hl)] at hg ⊢
      exact hg
    · rw [if_neg (by exact hl)] at hg ⊢
      exact after_guarded _ (after_inquiryEnded hn Table.get?_put_self hg)

theorem after_dispatch {d : Dispatch} (hg : ReflTransGen Move g (f.dispatched k s d)) :
    ReflTransGen Move g (after (dispatch notify k s d) f) := by
  unfold dispatch
  simp only [after_cancel_bind, after_get_bind]
  unfold Form.dispatched at hg
  dsimp only at hg
  rw [Form.withoutTimer_hasLoop, Form.withoutTimer_settings]
  by_cases hl : f.hasLoop = true
  · rw [if_pos hl] at hg ⊢
    exact hg
  · rw [if_neg hl] at hg ⊢
    exact after_guarded _ (after_inquiryQuiet hn Table.get?_put_self hg)

omit hn in
theorem currentAnswer_moves (k : SlotKey) (pending : Bool) : Follows Move (currentAnswer k pending) :=
  (track_moves _).bind fun _ => .of_eq fun _ => rfl

omit hn in
theorem openSlot_moves {i : Inquiry} (hi : .inquiry k.function i ∈ f.compiled.functions) :
    FollowsFrom Move f (openSlot k i) := by
  unfold FollowsFrom openSlot
  rw [after_slot?_bind]
  cases hs : Table.get? f.slots k with
  | none => exact .single (.opened hi hs)
  | some s => exact .refl

omit hn in
theorem openSlot_compiled (i : Inquiry) : (after (openSlot k i) f).compiled = f.compiled := by
  unfold openSlot
  rw [after_slot?_bind]
  split <;> rfl

theorem ask_moves {i : Inquiry} (hi : .inquiry k.function i ∈ f.compiled.functions) {c : Context} {d : Dispatch}
    (hd : i.question c = .ok d) : FollowsFrom Move f (ask notify k i d) := by
  unfold FollowsFrom ask
  simp only [after_get_bind, after_set_bind]
  cases hb : (f.answers.find? f.schedule.now d.key).1 with
  | some b => exact .single (.recalled hi hd hb)
  | none =>
    simp only [after_slot?_bind]
    refine .head (.consulted d.key) ?_
    cases hs : Table.get? f.slots k with
    | none => exact .refl
    | some s =>
      dsimp only
      split
      · refine FollowsFrom.bind ?_ fun _ _ => currentAnswer_moves _ _ _
        exact after_dispatch hn (.single (.dispatched hi hs hd))
      · exact currentAnswer_moves _ _ _

theorem inquire_moves {key : String} {i : Inquiry} (hi : .inquiry key i ∈ f.compiled.functions) (root : Value)
    (field : List Key) : FollowsFrom Move f (inquire notify key i root field) := by
  refine (openSlot_moves (k := ⟨key, field⟩) hi).bind fun _ _ => ?_
  refine (fieldContext_moves root field _).bind fun c _ => ?_
  cases hd : i.question c with
  | error e => exact ((report_moves _).bind fun _ => currentAnswer_moves _ _) _
  | ok d => exact ask_moves hn (by rw [← openSlot_compiled] at hi; exact hi) hd

omit hn in
/-- What a job is told, and what asking for it does to the form. -/
theorem replyTo_cases (i : Inquiry) (d : Dispatch) (f : Form) :
    (∃ o, (replyTo i d).run.run f = (.ok o, f) ∧ ∀ r, o = .ok r → ¬ i.isRemote) ∨
    ∃ v, f.service = some v ∧
      (replyTo i d).run.run f = (.ok (.ok (v.send d.snapshot).1), f.withService (v.send d.snapshot).2) := by
  unfold replyTo
  cases h : i.source with
  | async name ps =>
    refine .inl ⟨Inquiry.askFunction f.functions name d, rfl, fun _ _ => ?_⟩
    rintro ⟨r, e, hr⟩
    rw [h] at hr
    cases hr
  | remote r e =>
    cases hv : f.service with
    | none =>
      refine .inl ⟨.error (.unresolved d.key none (.text "no transport configured")), ?_, fun _ h => nomatch h⟩
      rw [run_get_bind, hv]
      rfl
    | some v =>
      refine .inr ⟨v, rfl, ?_⟩
      rw [run_get_bind, hv]
      rfl

theorem inquiryStart_moves {a : Appointment Task} {t : Schedule Task} {job : InquiryJob}
    (ht : f.schedule.Takes a t) (ha : a.task = .inquiryStart k job) :
    ReflTransGen Move f (after (inquiryStart notify k job) (f.onSchedule t)) := by
  unfold inquiryStart
  rw [after_slot?_bind]
  cases hs : Table.get? (f.onSchedule t).slots k with
  | none => exact .single (.lapsed ht (by rw [ha]; rfl) hs)
  | some s =>
    obtain ⟨o, h, hr⟩ | ⟨v, hv, h⟩ := replyTo_cases s.inquiry job.question (f.onSchedule t)
    · rw [after_bind_ok (congrArg Prod.fst h), show after _ _ = _ from congrArg Prod.snd h]
      cases o with
      | error e => exact after_inquiryEnded hn hs (.single (.failed ht ha hs))
      | ok r => exact .single (.asked ht ha hs fun h => absurd h (hr r rfl))
    · rw [after_bind_ok (congrArg Prod.fst h), show after _ _ = _ from congrArg Prod.snd h]
      have served : Move f (f.withService (v.send job.question.snapshot).2) := .aside (.served hv rfl)
      refine .head served (.single (.asked (f := f.withService _) ht ha hs fun _ => ⟨v, rfl, rfl⟩))

/-! ## Tests that have to be quiet -/

theorem after_testQuiet {d : Debounced (Option Bool)} (hd : Table.get? f.delayed k = some d)
    (hg : ReflTransGen Move g (f.testSettled k d)) : ReflTransGen Move g (after (testQuiet notify k) f) := by
  unfold testQuiet
  rw [after_get_bind, hd]
  dsimp only
  rw [after_modify_bind]
  refine hg.trans ?_
  split
  · exact hn _ _
  · exact .refl

omit hn in
theorem openTest_moves (k : SlotKey) : Follows Move (openTest k) := by
  refine .get_bind fun f => ?_
  split
  · next hnew =>
    refine .single (.aside (.testOpened ?_))
    simpa [Table.has] using hnew
  · exact .of_eq rfl

omit hn in
theorem openTest_compiled (k : SlotKey) (f : Form) : (after (openTest k) f).compiled = f.compiled := by
  unfold openTest
  rw [after_get_bind]
  split <;> rfl

omit hn in
/-- On a loop, the change of a result begins a quiet period. -/
theorem run_testChanged (hl : f.hasLoop = true) (d : Debounced (Option Bool)) (b : Bool) (ms : Int) :
    (testChanged notify k d b ms).run.run f = (.ok (), f.testChanged k d b ms) := by
  have hcancel : (cancel d.timer).run.run f = (.ok (), f.withoutTimer d.timer) := by cases d.timer <;> rfl
  have hloop := f.withoutTimer_hasLoop d.timer
  unfold testChanged
  rw [run_bind, show result (cancel d.timer) f = .ok () from congrArg Prod.fst hcancel,
    show after (cancel d.timer) f = f.withoutTimer d.timer from congrArg Prod.snd hcancel]
  dsimp only
  rw [run_get_bind, if_pos (hloop.trans hl)]
  rfl

omit hn in
/-- On a loop, a test is told its result and answers what it has settled to. -/
theorem run_followTest {d : Debounced (Option Bool)} (hl : f.hasLoop = true) (hd : Table.get? f.delayed k = some d)
    (b : Bool) (ms : Int) : ∃ reading, (followTest notify k b ms).run.run f =
      (.ok (d.settled.getD false), { f.testFollowed k d b ms with reading }) := by
  unfold followTest Form.testFollowed Form.testTold
  rw [run_get_bind, hd]
  dsimp only
  by_cases hb : d.source = some b
  · rw [if_pos hb, if_neg (not_not.mpr hb), show d.settled = (Table.get? f.delayed k).bind (·.settled) by rw [hd]; rfl]
    exact ⟨_, rfl⟩
  · have hrun := @run_testChanged notify k (f.testNoted k (f.isOnTime k) (.computed b ms)) hl d b ms
    have hsettled : d.settled = (Table.get? (f.testChanged k d b ms).delayed k).bind (·.settled) := by
      unfold Form.testChanged
      dsimp only [Form.withTest]
      rw [Table.get?_put_self]
      rfl
    rw [Form.testChanged_testNoted, ← f.testChanged_schedule_now k d b ms] at hrun
    rw [if_neg hb, if_pos hb, ← f.testChanged_schedule_now k d b ms, hsettled]
    refine ⟨(after (track (.settled k)) (f.testChanged k d b ms)).reading, (run_bind (testChanged notify k d b ms)
      (fun _ => currentTest k (f.isOnTime k)) (f.testNoted k (f.isOnTime k) (.computed b ms))).trans ?_⟩
    rw [show result _ _ = _ from congrArg Prod.fst hrun, show after _ _ = _ from congrArg Prod.snd hrun]
    rfl

omit hn in
theorem currentTest_moves (k : SlotKey) : Follows Move (currentTest k false) :=
  (track_moves _).bind fun _ => .get_bind fun _ => .single (.aside (.testNoted k (.answered _)))

/-- Without a loop, the quiet period that the change of a result begins is over at once. -/
theorem testChanged_moves {d : Debounced (Option Bool)} (hl : ¬ f.hasLoop = true) (hlate : f.IsLate k)
    (hd : Table.get? f.delayed k = some d) (b : Bool) (ms : Int) : FollowsFrom Move f (testChanged notify k d b ms) := by
  have hloop := f.withoutTimer_hasLoop d.timer
  have hcancelled : (f.withoutTimer d.timer).IsLate k := by cases d.timer <;> exact hlate
  unfold FollowsFrom testChanged
  simp only [after_cancel_bind, after_get_bind]
  rw [if_neg (by rw [hloop]; exact hl)]
  refine .head (.aside (.testCancelled hlate hd)) ?_
  refine .head (.aside (.testPut (d := d.change (some b) none) hcancelled rfl)) ?_
  refine after_guarded _ (after_testQuiet hn Table.get?_put_self (.single (.aside (.testPut hcancelled ?_))))
  exact Debounced.settle_timer _ _

theorem followTest_moves {t : Test} {ms : Int} (ht : .delayed k.function t ms ∈ f.compiled.functions) (b : Bool) :
    FollowsFrom Move f (followTest notify k b ms) := by
  cases hd : Table.get? f.delayed k with
  | none =>
    refine .of_eq ?_
    unfold followTest
    rw [after_get_bind, hd]
    rfl
  | some d =>
  by_cases hl : f.hasLoop = true
  · obtain ⟨reading, hrun⟩ := @run_followTest notify k f d hl hd b ms
    unfold FollowsFrom after
    rw [hrun]
    exact .head (.aside (.testFollowed ht hd b)) (noted_of_eq rfl)
  · have hlate : f.isOnTime k = false := by simp [Form.isOnTime, hl]
    unfold FollowsFrom followTest
    rw [after_get_bind, hd]
    dsimp only
    rw [after_recordTest_bind, hlate]
    refine .head (.aside (.testNoted k (.computed b ms))) ?_
    split
    · have hnoted : (f.testNoted k false (.computed b ms)).IsLate k := ⟨_, List.mem_cons_self, rfl, rfl⟩
      exact FollowsFrom.bind (testChanged_moves hn (f := f.testNoted k false _) hl hnoted hd b ms) fun _ _ =>
        currentTest_moves k _
    · exact currentTest_moves k _

theorem callDelayed_moves {key : String} {t : Test} {ms : Int} (ht : .delayed key t ms ∈ f.compiled.functions)
    (root : Value) (field : List Key) : FollowsFrom Move f (callDelayed notify key t ms root field) := by
  refine (openTest_moves ⟨key, field⟩ f).bind fun _ _ => (testHolds_moves t root field _).bind fun b _ => ?_
  have hcompiled : (after (testHolds t root field) (after (openTest ⟨key, field⟩) f)).compiled = f.compiled :=
    openTest_compiled ⟨key, field⟩ f
  exact followTest_moves hn (k := ⟨key, field⟩) (hcompiled ▸ ht) b

/-! ## Calls -/

theorem call_moves {l : LogicFunction} (hl : l ∈ f.compiled.functions) (root : Value) (field : List Key) :
    FollowsFrom Move f (call notify l root field) := by
  cases l with
  | test t => exact testHolds_moves t root field f
  | delayed key t ms => exact callDelayed_moves hn hl root field
  | inquiry key i => exact inquire_moves hn hl root field
  | value e => exact .of_eq rfl

omit hn in
theorem mem_of_functionAt {n : Nat} {l : LogicFunction} (h : result (functionAt n) f = .ok l) :
    l ∈ f.compiled.functions ∧ after (functionAt n) f = f := by
  obtain ⟨f', hf, h, ha⟩ := of_result_bind h
  cases hf
  cases hn : f.compiled.functions[n]? with
  | none => rw [hn] at h; cases h
  | some m =>
    rw [hn] at h ha
    cases h
    exact ⟨List.mem_of_getElem? hn, ha⟩

theorem holdsAt_moves (ms : Option Int) (c : Condition) (root : Value) (field : List Key) :
    Follows Move (holdsAt notify ms c root field) :=
  (compile_moves ms c).bind fun n f => (functionAt_moves n f).bind fun l h => by
    obtain ⟨hl, hf⟩ := mem_of_functionAt h
    rw [hf]
    exact call_moves hn hl root field

end

end Live
end FormRules
