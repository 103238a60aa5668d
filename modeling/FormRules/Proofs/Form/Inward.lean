import FormRules.Proofs.Condition.Composite
import FormRules.Proofs.Form.Frame

/-!
# What telling watchers leaves alone

Watchers that are told of a change compute their states anew, and may have inquiries dispatched. Besides what no move
changes (`lasting`), this leaves alone the derivations whose values come later, and wants no inquiry to be decided at
once.
-/

namespace FormRules
open Reporting (InBand)
variable {α β : Type}

/-! ## Rules are collected without asking -/

namespace Reporting.InBand
variable {x : Reporting α} {y : Checking α} {k : α → Checking β}

theorem of_outcome (o : Outcome α) : InBand (ExceptT.mk (Pure.pure o) : Checking α).run := pure o

theorem lift (hx : InBand x) : InBand (ExceptT.lift x : Checking α).run := fun j => hx j

theorem andThen (hy : InBand y.run) (hk : ∀ a, InBand (k a).run) : InBand (y >>= k).run := by
  rw [ExceptT.run_bind]
  refine hy.bind fun o => ?_
  cases o with
  | ok a => exact hk a
  | error e => exact pure _

theorem mapM {l : List α} {h : α → Checking β} (hh : ∀ a, InBand (h a).run) : InBand (l.mapM h).run := by
  induction l with
  | nil =>
    rw [List.mapM_nil]
    exact pure _
  | cons a l ih =>
    rw [List.mapM_cons]
    exact (hh a).andThen fun _ => ih.andThen fun _ => pure _

end Reporting.InBand

theorem Value.satisfies_inBand (v predicate : Value) : InBand (v.satisfies predicate).run := by
  unfold satisfies
  by_cases h : predicate.isHashable = true
  · simp only [h, Bool.not_true, Bool.false_eq_true, if_false]
    split
    · exact .pure _
    · split
      · exact .pure _
      · exact (InBand.report (n := .predicateFailed) rfl).lift.andThen fun _ => .pure _
  · simp only [h]
    exact .pure _

theorem Place.targets_inBand (p : Place) (kind : ApplicationKind) (predicate root : Value) :
    InBand (p.targets kind predicate root).run := by
  unfold targets
  cases kind with
  | always => exact .pure _
  | whenever c => exact .pure _
  | forType => exact (Value.satisfies_inBand _ _).andThen fun _ => .pure _
  | forEach =>
    dsimp only
    split <;> exact .pure _

section
variable {registry : SchemaRegistry} {root : Value} {named : Schema → Place → Checking Rules}

theorem Place.enter_inBand {rules : Place → Checking Rules} (hr : ∀ p, InBand (rules p).run) (p : Place)
    (kind : ApplicationKind) (predicate path : Value) (name : String) :
    InBand (p.enter kind predicate path root name rules).run := by
  unfold enter
  split
  · exact (InBand.report rfl).lift.andThen fun _ => .pure _
  · exact (InBand.of_outcome _).andThen fun _ => (targets_inBand _ _ _ _).andThen fun _ =>
      (InBand.mapM fun _ => hr _).andThen fun _ => .pure _

mutual

theorem Schema.rules_inBand (hn : ∀ s p, InBand (named s p).run) (s : Schema) (p : Place) :
    InBand (s.rules registry root named p).run := by
  cases s with
  | mk name description vs ls subs =>
    rw [Schema.rules]
    exact (SchemaApplication.rulesAll_inBand hn subs p).andThen fun _ => .pure _

theorem SchemaApplication.rulesAll_inBand (hn : ∀ s p, InBand (named s p).run) (as : List SchemaApplication) (p : Place) :
    InBand (SchemaApplication.rulesAll registry root named as p).run := by
  cases as with
  | nil => exact .pure _
  | cons a as =>
    rw [SchemaApplication.rulesAll]
    exact (SchemaApplication.rules_inBand hn a p).andThen fun _ =>
      (SchemaApplication.rulesAll_inBand hn as p).andThen fun _ => .pure _

theorem SchemaApplication.rules_inBand (hn : ∀ s p, InBand (named s p).run) (a : SchemaApplication) (p : Place) :
    InBand (a.rules registry root named p).run := by
  cases a with
  | mk kind ref predicate path =>
    cases ref with
    | named n =>
      rw [SchemaApplication.rules, SchemaRef.rules]
      split
      · exact Place.enter_inBand (hn _) _ _ _ _ _
      · exact (InBand.report rfl).lift.andThen fun _ => .pure _
    | inline s =>
      rw [SchemaApplication.rules, SchemaRef.rules]
      exact Place.enter_inBand (Schema.rules_inBand hn s) _ _ _ _ _

end

end

theorem SchemaRegistry.rulesWithin_inBand (registry : SchemaRegistry) (root : Value) (fuel : Nat) (s : Schema) (p : Place) :
    InBand (registry.rulesWithin root fuel s p).run := by
  induction fuel generalizing s p with
  | zero => exact .pure _
  | succ fuel ih => exact Schema.rules_inBand ih s p

theorem SchemaRegistry.collect_inBand (registry : SchemaRegistry) (root : Value) (as : List (String × SchemaApplication)) :
    InBand (registry.collect root as).run := by
  induction as with
  | nil => exact .pure _
  | cons a as ih =>
    exact (InBand.of_outcome _).andThen fun _ =>
      (SchemaApplication.rules_inBand (registry.rulesWithin_inBand root _) _ _).andThen fun _ =>
        ih.andThen fun _ => .pure _

theorem Rulebook.rules_inBand (b : Rulebook) (root : Value) : InBand (b.rules root).run :=
  (b.schemas.collect_inBand root _).andThen fun _ => .pure _

theorem Inquiry.outcome_inBand (i : Inquiry) (c : Context) (response : Outcome Value) : InBand (i.outcome c response) := by
  cases response with
  | error e => exact .pure _
  | ok v =>
    rw [outcome, interpret]
    split
    · split
      · exact (InBand.of_outcome _).andThen fun _ => (InBand.asBoolean _ _).lift
      · exact .pure _
    · exact (InBand.asBoolean _ _).lift

/-! ## Steps -/

/-- The step leaves alone what telling watchers does. -/
structure Inward (f g : Form) : Prop where
  lasting : g.lasting = f.lasting
  streams : g.streams = f.streams
  outOfBand : g.journal.outOfBand = f.journal.outOfBand

namespace Live
variable {x : Live α} {f : Form}

theorem FollowsFrom.inward (h : FollowsFrom Inward f x) : Inward f (after x f) :=
  h.keeps (P := fun g => Inward f g) (fun _ _ hm hg =>
    ⟨hm.lasting.trans hg.lasting, hm.streams.trans hg.streams, hm.outOfBand.trans hg.outOfBand⟩) ⟨rfl, rfl, rfl⟩

theorem inward_of_eq {g : Form} (hl : g.lasting = f.lasting) (hs : g.streams = f.streams) (hj : g.journal = f.journal) :
    Relation.ReflTransGen Inward f g := .single ⟨hl, hs, by rw [hj]⟩

theorem ofReporting_inward {x : Reporting α} (h : InBand x) : Follows Inward (ofReporting x) :=
  fun f => .single ⟨rfl, rfl, h f.journal⟩

theorem report_inward {n : Notice} (h : n.isOutOfBand = false) : Follows Inward (report n) :=
  ofReporting_inward (.report h)

theorem ofChecking_inward {x : Checking α} (h : InBand x.run) : Follows Inward (ofChecking x) :=
  (ofReporting_inward h).bind fun _ => .ofOutcome _

theorem track_inward (s : Source) : Follows Inward (track s) := fun _ => inward_of_eq rfl rfl rfl

theorem tell_inward (tag : String) (v : Value) : Follows Inward (tell tag v) := fun _ => inward_of_eq rfl rfl rfl

theorem cancel_inward (timer : Option Nat) : Follows Inward (cancel timer) := fun _ => by
  cases timer <;> exact inward_of_eq rfl rfl rfl

theorem schedule_inward (delay : Int) (t : Task) : Follows Inward (schedule delay t) := fun _ => inward_of_eq rfl rfl rfl

theorem guarded_inward {x : Live Unit} (h : Follows Inward x) : Follows Inward (guarded x) :=
  h.tryCatch fun _ => report_inward rfl

theorem watching_inward {x : Live α} (h : Follows Inward x) : Follows Inward (watching x) := fun f =>
  ((inward_of_eq rfl rfl rfl : Relation.ReflTransGen Inward f { f with reading := some [] }).trans (h _)).trans
    (inward_of_eq rfl rfl rfl)

theorem fieldContext_inward (root : Value) (field : List Key) : Follows Inward (fieldContext root field) :=
  (track_inward _).bind fun _ => (track_inward _).bind fun _ => .of_eq fun _ => rfl

theorem compile_inward (quietMs : Option Int) (c : Condition) : Follows Inward (compile quietMs c) :=
  fun _ => inward_of_eq rfl rfl rfl

theorem functionAt_inward (n : Nat) : Follows Inward (functionAt n) := by
  refine .get_bind fun f => ?_
  split <;> exact .of_eq rfl

theorem testHolds_inward (t : Test) (root : Value) (field : List Key) : Follows Inward (testHolds t root field) :=
  (fieldContext_inward root field).bind fun _ => .get_bind fun _ => ofReporting_inward (t.holds_inBand _ _) _

theorem putSlot_inward (k : SlotKey) (s : Slot) : Follows Inward (putSlot k s) := fun _ => inward_of_eq rfl rfl rfl

theorem record_inward (k : SlotKey) (i : Inquiry) (e : InquiryEvent) : Follows Inward (record k i e) :=
  fun _ => inward_of_eq rfl rfl rfl

/-! ## Calls -/

section
variable {notify : Source → Live Unit} (hn : ∀ s, Follows Inward (notify s))
include hn

theorem answer_inward (k : SlotKey) (s : Slot) (job : InquiryJob) (b : Bool) :
    Follows Inward (answer notify k s job b) := by
  refine (record_inward _ _ _).bind fun _ => (putSlot_inward _ _).bind fun _ => ?_
  split
  · exact hn _
  · exact .pure ()

theorem inquiryEnded_inward (k : SlotKey) (job : InquiryJob) (response : Outcome Value) :
    Follows Inward (inquiryEnded notify k job response) := by
  refine .get_bind fun f => ?_
  cases Table.get? f.slots k with
  | none => exact .of_eq rfl
  | some s =>
    refine Follows.bind (record_inward _ _ _) (fun _ => ?_) f
    refine (ofReporting_inward (Inquiry.outcome_inBand _ _ _)).bind fun o => (putSlot_inward _ _).bind fun _ => ?_
    split
    · exact .pure ()
    · cases o with
      | ok b =>
        refine .bind (fun _ => ?_) fun _ => answer_inward hn _ _ _ _
        exact inward_of_eq rfl rfl rfl
      | error e => exact (report_inward rfl).bind fun _ => answer_inward hn _ _ _ _

theorem inquiryQuiet_inward (k : SlotKey) : Follows Inward (inquiryQuiet notify k) := by
  refine .get_bind fun f => ?_
  cases Table.get? f.slots k with
  | none => exact .of_eq rfl
  | some s =>
    refine Follows.bind (putSlot_inward _ _) (fun _ => ?_) f
    split
    · refine (record_inward _ _ _).bind fun _ => .get_bind fun g => ?_
      split
      · exact (schedule_inward _ _).bind (fun _ => .pure ()) g
      · exact guarded_inward (inquiryEnded_inward hn _ _ _) g
    · exact .pure ()

theorem dispatch_inward (k : SlotKey) (s : Slot) (d : Dispatch) : Follows Inward (dispatch notify k s d) := by
  refine (cancel_inward _).bind fun _ => .get_bind fun f => ?_
  split
  · exact (schedule_inward _ _).bind (fun _ => (record_inward _ _ _).bind fun _ => putSlot_inward _ _) f
  · refine (record_inward _ _ _).bind (fun _ => ?_) f
    exact (putSlot_inward _ _).bind fun _ => guarded_inward (inquiryQuiet_inward hn k)

omit hn in
theorem currentAnswer_inward (k : SlotKey) (pending : Bool) : Follows Inward (currentAnswer k pending) :=
  (track_inward _).bind fun _ => .of_eq fun _ => rfl

theorem ask_inward (k : SlotKey) (i : Inquiry) (d : Dispatch) : Follows Inward (ask notify k i d) := by
  refine .get_bind fun f => ?_
  dsimp only
  cases f.answers.find? f.schedule.now d.key with
  | mk known answers =>
  refine .bind (inward_of_eq rfl rfl rfl) fun _ _ => ?_
  cases known with
  | some b => exact (record_inward _ _ _).bind (fun _ => .pure _) _
  | none =>
    refine .bind (.of_eq rfl) fun s _ => ?_
    cases s with
    | none => exact .of_eq rfl
    | some s =>
      dsimp only
      split
      · exact (dispatch_inward hn _ _ _).bind (fun _ => currentAnswer_inward _ _) _
      · exact currentAnswer_inward _ _ _

theorem inquire_inward (key : String) (i : Inquiry) (root : Value) (field : List Key) :
    Follows Inward (inquire notify key i root field) := by
  have opened : Follows Inward (openSlot ⟨key, field⟩ i) := by
    refine .get_bind fun f => ?_
    split
    · exact putSlot_inward _ _ f
    · exact .of_eq rfl
  refine opened.bind fun _ => (fieldContext_inward _ _).bind fun c => ?_
  split
  · exact (report_inward rfl).bind fun _ => currentAnswer_inward _ _
  · exact ask_inward hn _ _ _

theorem testQuiet_inward (k : SlotKey) : Follows Inward (testQuiet notify k) := by
  refine .get_bind fun f => ?_
  split
  · refine .bind (inward_of_eq rfl rfl rfl) fun _ _ => ?_
    split
    · exact hn _ _
    · exact .of_eq rfl
  · exact .of_eq rfl

theorem followTest_inward (k : SlotKey) (b : Bool) (ms : Int) : Follows Inward (followTest notify k b ms) := by
  have changed (d : Debounced (Option Bool)) : Follows Inward (testChanged notify k d b ms) := by
    refine (cancel_inward _).bind fun _ => .get_bind fun f => ?_
    split
    · exact (schedule_inward _ _).bind (fun _ _ => inward_of_eq rfl rfl rfl) f
    · exact .bind (inward_of_eq rfl rfl rfl) fun _ _ => guarded_inward (testQuiet_inward hn k) _
  have current (onTime : Bool) : Follows Inward (currentTest k onTime) :=
    (track_inward _).bind fun _ _ => inward_of_eq rfl rfl rfl
  refine .get_bind fun f => ?_
  split
  · refine .bind (inward_of_eq rfl rfl rfl) fun _ _ => ?_
    dsimp only
    split
    · exact (changed _).bind (fun _ => current _) _
    · exact current _ _
  · exact .of_eq rfl

theorem callDelayed_inward (key : String) (t : Test) (ms : Int) (root : Value) (field : List Key) :
    Follows Inward (callDelayed notify key t ms root field) := by
  have opened : Follows Inward (openTest ⟨key, field⟩) := by
    refine .get_bind fun f => ?_
    split
    · exact inward_of_eq rfl rfl rfl
    · exact .of_eq rfl
  exact opened.bind fun _ => (testHolds_inward t root field).bind fun _ => followTest_inward hn _ _ _

theorem call_inward (l : LogicFunction) (root : Value) (field : List Key) : Follows Inward (call notify l root field) := by
  cases l with
  | test t => exact testHolds_inward t root field
  | delayed key t ms => exact callDelayed_inward hn key t ms root field
  | inquiry key i => exact inquire_inward hn key i root field
  | value e => exact .throw _

theorem holdsAt_inward (quietMs : Option Int) (c : Condition) (root : Value) (field : List Key) :
    Follows Inward (holdsAt notify quietMs c root field) :=
  (compile_inward quietMs c).bind fun n => (functionAt_inward n).bind fun l => call_inward hn l root field

/-! ## Watchers -/

theorem allHoldAt_inward (field : List Key) (cs : List Condition) : Follows Inward (allHoldAt notify field cs) := by
  induction cs with
  | nil => exact .pure true
  | cons c cs ih =>
    refine .get_bind fun f => (holdsAt_inward hn none c f.value field).bind (fun b => ?_) f
    split
    · exact ih
    · exact .pure false

theorem anyRuleHolds_inward (field : List Key) (rs : List LogicRule) : Follows Inward (anyRuleHolds notify field rs) := by
  induction rs with
  | nil => exact .pure false
  | cons r rs ih =>
    have rest (b : Bool) : Follows Inward (if b = true then pure true else anyRuleHolds notify field rs) := by
      split
      · exact .pure true
      · exact ih
    refine (allHoldAt_inward hn field r.guards).bind fun guarded => ?_
    dsimp only
    split
    · exact .get_bind fun f => (holdsAt_inward hn _ _ f.value field).bind rest f
    · exact rest false

theorem logicState_inward (logic : String) (field : List Key) : Follows Inward (logicState notify logic field) :=
  (track_inward _).bind fun _ => .get_bind fun f =>
    Follows.bind (.get_bind fun g => ofChecking_inward (g.rulebook.rules_inBand f.value) g)
      (fun _ => anyRuleHolds_inward hn field _) f

theorem refresh_inward (n : Nat) : Follows Inward (refresh notify n) := by
  refine .get_bind fun f => ?_
  cases f.watchers[n]? with
  | none => exact .of_eq rfl
  | some w =>
    refine (watching_inward (logicState_inward hn w.logic w.field) f).bind fun r _ => ?_
    refine .bind (inward_of_eq rfl rfl rfl) fun _ _ => .bind (.of_eq rfl) fun _ _ => ?_
    exact .bind (inward_of_eq rfl rfl rfl) fun _ _ => .of_eq rfl

theorem markStale_inward (n : Nat) : Follows Inward (markStale notify n) := by
  refine .get_bind fun f => ?_
  cases f.watchers[n]? with
  | none => exact .of_eq rfl
  | some w =>
    dsimp only
    split
    · exact .of_eq rfl
    refine .bind (inward_of_eq rfl rfl rfl) fun _ _ => ?_
    split
    · exact .of_eq rfl
    refine (refresh_inward hn n _).bind fun state _ => ?_
    split
    · exact .of_eq rfl
    refine .bind (.of_eq rfl) fun told _ => ?_
    exact (Follows.forIn fun _ _ _ => (tell_inward _ _).bind fun _ => .pure _).bind (fun _ => .pure _) _

end

theorem notifyWithin_inward (fuel : Nat) (s : Source) : Follows Inward (notifyWithin fuel s) := by
  induction fuel generalizing s with
  | zero => exact .pure ()
  | succ fuel ih =>
    refine .bind (.of_eq fun _ => rfl) fun ns => ?_
    exact (Follows.forIn fun n _ _ => (markStale_inward ih n).bind fun _ => .pure _).bind fun _ => .pure _

theorem notify_inward (s : Source) : Follows Inward (notify s) := .get_bind fun _ => notifyWithin_inward _ s _

end Live
end FormRules
