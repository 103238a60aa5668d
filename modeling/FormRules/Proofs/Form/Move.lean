import FormRules.Form.Operation
import FormRules.Proofs.Inquiry.Slot
import FormRules.Proofs.Time.Schedule

/-!
# The steps of a form

What an operation does to a form is a sequence of steps. Steps that leave the value alone are the
`Move`s: those of inquiries, and the `Aside`s, which no inquiry takes notice of. A `Turn` may also
write the value or attach rules. Each step says all that can happen in it, so that what is
kept by every step is kept by every form that can be reached.
-/

namespace FormRules

/-- The slot of the inquiry that a task is about. -/
def Task.slot? : Task → Option SlotKey
  | .inquiryQuiet k | .inquiryStart k _ | .inquiryReply k _ _ => some k
  | _ => none

namespace Compiled

/-- Compiling adds to what is known: a condition, a value expression, or a validator that is not known yet. -/
inductive Grows (fs : Functions) (c : Compiled) : Compiled → Prop
  | condition (quietMs : Option Int) (cond : Condition) : Grows fs c (c.condition quietMs cond).2
  | value (e : Value) : Grows fs c (c.valueExpression e).2
  | validator {v : Validator} {w : CompiledValidator} (hnew : Table.get? c.validators v.key = none)
      (h : v.compile fs = .ok w) : Grows fs c { c with validators := Table.put c.validators v.key w }

/-- Something has been compiled that answers for the validator. -/
def Has (c : Compiled) (v : Validator) : Prop := Table.has c.validators v.key = true

end Compiled

namespace Form
variable (f : Form) (k : SlotKey)

/-- What the service of the form answers. -/
def routes : List (String × List Route) := (f.service.map (·.routes)).getD []

/-- Something is recorded about an inquiry. -/
def recorded (i : Inquiry) (e : InquiryEvent) : Form :=
  { f with history := ⟨k, i, f.schedule.now, e⟩ :: f.history }

/-- A slot is written. -/
def withSlot (s : Slot) : Form := { f with slots := Table.put f.slots k s }

/-- The pending tasks and the clock are those of another schedule. -/
def onSchedule (s : Schedule Task) : Form := { f with schedule := s }

/-- A task is scheduled. -/
def booked (delay : Int) (t : Task) : Form := f.onSchedule (f.schedule.after delay t)

/-- The task of a timer is dropped. -/
def withoutTimer : Option Nat → Form
  | some n => f.onSchedule (f.schedule.cancel n)
  | none => f

@[simp] theorem withoutTimer_hasLoop (t : Option Nat) : (f.withoutTimer t).hasLoop = f.hasLoop := by
  cases t <;> rfl

@[simp] theorem withoutTimer_settings (t : Option Nat) : (f.withoutTimer t).settings = f.settings := by
  cases t <;> rfl

@[simp] theorem withoutTimer_now (t : Option Nat) : (f.withoutTimer t).schedule.now = f.schedule.now := by
  cases t <;> rfl

@[simp] theorem withoutTimer_history (t : Option Nat) : (f.withoutTimer t).history = f.history := by
  cases t <;> rfl

@[simp] theorem withoutTimer_streams (t : Option Nat) : (f.withoutTimer t).streams = f.streams := by
  cases t <;> rfl

/-- A question is looked up in what has been remembered. -/
def consulted (key : String) : Form := { f with answers := (f.answers.find? f.schedule.now key).2 }

/-- The outcome of a job becomes the answer of a slot. -/
def answered (s : Slot) (job : InquiryJob) (b : Bool) : Form :=
  (f.recorded k s.inquiry (.published s job b)).withSlot k (s.answer b)

/-- An answer is remembered for as long as the inquiry wants it to be. -/
def remembered (s : Slot) (job : InquiryJob) (b : Bool) : Form :=
  { f with answers := f.answers.put f.schedule.now job.question.key b (s.inquiry.memoryMs f.settings) }

/-- A job ends with a response; the outcome of the latest one is published. -/
def jobEnded (s : Slot) (job : InquiryJob) (response : Outcome Value) : Form :=
  let (t, delivers) := s.finish job.number
  let g := (f.recorded k s.inquiry (.ended job response)).withSlot k t
  if delivers then
    match s.inquiry.judge job.question.context response with
    | .ok b => (g.remembered t job b).answered k t job b
    | .error _ => g.answered k t job t.inquiry.pending
  else g

/-- A job is started, or refused if there is no loop to run it. -/
def jobStarted (s : Slot) (job : InquiryJob) : Form :=
  let g := f.recorded k s.inquiry (.started job)
  if f.hasLoop then g.booked 0 (.inquiryStart k job)
  else g.jobEnded k s job (.error (.raised "no running event loop to resolve asynchronously"))

/-- A quiet period is over, which starts a job unless the latest one asked the same. -/
def quietOver (s : Slot) : Form :=
  match s.settle with
  | (t, some job) => (f.withSlot k t).jobStarted k t job
  | (t, none) => f.withSlot k t

/-- A question is dispatched: a new quiet period begins, which without a loop is over at once. -/
def dispatched (s : Slot) (d : Dispatch) : Form :=
  let g := f.withoutTimer s.lane.timer
  if f.hasLoop then
    let booked := g.booked (s.inquiry.quietMs f.settings) (.inquiryQuiet k)
    (booked.recorded k s.inquiry (.dispatched d (some g.schedule.issued))).withSlot k
      (s.dispatch d (some g.schedule.issued))
  else ((g.recorded k s.inquiry (.dispatched d none)).withSlot k (s.dispatch d none)).quietOver k (s.dispatch d none)

/-- The service is another one. -/
def withService (s : Service) : Form := { f with service := some s }

/-- Something is recorded about a test. -/
def testNoted (onTime : Bool) (e : TestEvent) : Form :=
  { f with tests := ⟨k, f.schedule.now, onTime, e⟩ :: f.tests }

/-- The state of a test is written. -/
def withTest (d : Debounced (Option Bool)) : Form := { f with delayed := Table.put f.delayed k d }

/-- The result of a test changes, which begins a quiet period on a loop. -/
def testChanged (d : Debounced (Option Bool)) (b : Bool) (ms : Int) : Form :=
  let g := f.withoutTimer d.timer
  (g.booked ms (.testQuiet k)).withTest k (d.change (some b) (some g.schedule.issued))

theorem testChanged_testNoted (d : Debounced (Option Bool)) (b : Bool) (ms : Int) (onTime : Bool) (e : TestEvent) :
    (f.testNoted k onTime e).testChanged k d b ms =
      { f.testChanged k d b ms with tests := ⟨k, f.schedule.now, onTime, e⟩ :: f.tests } := by
  unfold testChanged
  cases d.timer <;> rfl

@[simp] theorem testChanged_schedule_now (d : Debounced (Option Bool)) (b : Bool) (ms : Int) :
    (f.testChanged k d b ms).schedule.now = f.schedule.now := by
  unfold testChanged
  cases d.timer <;> rfl

/-- The result of a test is told on a loop. -/
def testTold (d : Debounced (Option Bool)) (b : Bool) (ms : Int) : Form :=
  if d.source = some b then f else f.testChanged k d b ms

/-- The result of a test is told on a loop, and what the test has settled to is answered. -/
def testFollowed (d : Debounced (Option Bool)) (b : Bool) (ms : Int) : Form :=
  { f.testTold k d b ms with
    tests := ⟨k, f.schedule.now, f.isOnTime k, .answered (d.settled.getD false)⟩ ::
      ⟨k, f.schedule.now, f.isOnTime k, .computed b ms⟩ :: f.tests }

/-- Telling a test its result touches nothing but tests and their timers. -/
theorem testFollowed_eq (d : Debounced (Option Bool)) (b : Bool) (ms : Int) : ∃ delayed tests schedule,
    f.testFollowed k d b ms = { f with delayed, tests, schedule } := by
  unfold testFollowed testTold testChanged
  split
  · exact ⟨_, _, _, rfl⟩
  · cases d.timer <;> exact ⟨_, _, _, rfl⟩

/-- The quiet period of a test is over. -/
def testSettled (d : Debounced (Option Bool)) : Form := f.withTest k (d.settle fun a b => a = b).1

/-- Something was recorded about a test without a loop, or on one that was late with its quiet period. -/
def IsLate : Prop := ∃ e ∈ f.tests, e.slot = k ∧ e.onTime = false

/-- A job asks, and waits for its reply. -/
def asked (s : Slot) (job : InquiryJob) (r : Reply Value) : Form :=
  (f.recorded k s.inquiry (.asked job r)).booked r.delay (.inquiryReply k job r.outcome)

end Form

/-- Steps that no inquiry takes notice of. -/
inductive Aside : Form → Form → Prop
  | noted {f : Form} (journal : Journal) (reading : Option (List Source)) (events : List (String × Value))
      (watchers : List Watcher) (checks : List PendingCheck) :
      Aside f { f with journal, reading, events, watchers, checks }
  | ticked {f : Form} {now : Int} (h : f.schedule.now ≤ now) :
      Aside f (f.onSchedule { f.schedule with now })
  | served {f : Form} {s t : Service} (h : f.service = some s) (ht : t.routes = s.routes) :
      Aside f (f.withService t)
  | booked {f : Form} {t : Task} (delay : Int) (h : t.slot? = none) (hk : ∀ k, t.isTestQuiet k = false) :
      Aside f (f.booked delay t)
  | testOpened {f : Form} {k : SlotKey} (h : Table.get? f.delayed k = none) :
      Aside f (f.withTest k ⟨none, some false, none⟩)
  | testFollowed {f : Form} {k : SlotKey} {d : Debounced (Option Bool)} {t : Test} {ms : Int}
      (ht : .delayed k.function t ms ∈ f.compiled.functions) (h : Table.get? f.delayed k = some d) (b : Bool) :
      Aside f (f.testFollowed k d b ms)
  | testSettled {f : Form} {a : Appointment Task} {s : Schedule Task} {k : SlotKey} {d : Debounced (Option Bool)}
      (ht : f.schedule.Takes a s) (ha : a.task = .testQuiet k) (h : Table.get? f.delayed k = some d) :
      Aside f ((f.onSchedule s).testSettled k d)
  | testNoted {f : Form} (k : SlotKey) (e : TestEvent) : Aside f (f.testNoted k false e)
  | testCancelled {f : Form} {k : SlotKey} {d : Debounced (Option Bool)} (hl : f.IsLate k)
      (h : Table.get? f.delayed k = some d) : Aside f (f.withoutTimer d.timer)
  | testPut {f : Form} {k : SlotKey} {d : Debounced (Option Bool)} (hl : f.IsLate k) (h : d.timer = none) :
      Aside f (f.withTest k d)
  | streamCancelled {f : Form} {n : Nat} {s : Stream} (h : f.streams[n]? = some s) :
      Aside f (f.withoutTimer s.lane.timer)
  | streamPut {f : Form} {n : Nat} {s t : Stream} (h : f.streams[n]? = some s)
      (ht : t.lane.timer = none ∨ t.lane.timer = s.lane.timer) :
      Aside f { f with streams := f.streams.set n t }
  | streamTimed {f : Form} (n : Nat) (s : Stream) (root : Value) (ms : Int) :
      Aside f { f.booked ms (.streamQuiet n) with
        streams := f.streams.set n (s.trigger root (some f.schedule.issued)) }
  | taken {f : Form} {a : Appointment Task} {s : Schedule Task} (h : f.schedule.Takes a s)
      (ha : a.task.slot? = none) (hk : ∀ k, a.task = .testQuiet k → Table.get? f.delayed k = none) :
      Aside f (f.onSchedule s)

/-- What holds of a form with another schedule and another state of a test holds once a test has been told. -/
theorem Form.testTold_cases {P : Form → Prop} {f : Form} {k : SlotKey} {d : Debounced (Option Bool)} {b : Bool}
    {ms : Int} (h : P f) (hc : P (f.testChanged k d b ms)) : P (f.testTold k d b ms) := by
  unfold testTold
  split
  · exact h
  · exact hc

theorem Aside.history {f g : Form} (h : Aside f g) : g.history = f.history := by
  cases h with
  | @testFollowed k d t ms ht h b =>
    obtain ⟨_, _, _, heq⟩ := f.testFollowed_eq k d b ms
    rw [heq]
  | testCancelled => exact f.withoutTimer_history _
  | streamCancelled => exact f.withoutTimer_history _
  | _ => rfl

/-- Steps that leave the value of the form alone. -/
inductive Move : Form → Form → Prop
  | aside {f g : Form} (h : Aside f g) : Move f g
  | compiled {f : Form} {c : Compiled} (h : f.compiled.Grows f.functions c) : Move f { f with compiled := c }
  | opened {f : Form} {k : SlotKey} {i : Inquiry} (hi : .inquiry k.function i ∈ f.compiled.functions)
      (hs : Table.get? f.slots k = none) : Move f (f.withSlot k (.fresh i))
  | consulted {f : Form} (key : String) : Move f (f.consulted key)
  | recalled {f : Form} {k : SlotKey} {i : Inquiry} {c : Context} {d : Dispatch} {b : Bool}
      (hi : .inquiry k.function i ∈ f.compiled.functions) (hd : i.question c = .ok d)
      (hb : (f.answers.find? f.schedule.now d.key).1 = some b) :
      Move f ((f.consulted d.key).recorded k i (.recalled d b))
  | dispatched {f : Form} {k : SlotKey} {i : Inquiry} {s : Slot} {c : Context} {d : Dispatch}
      (hi : .inquiry k.function i ∈ f.compiled.functions) (hs : Table.get? f.slots k = some s)
      (hd : i.question c = .ok d) : Move f (f.dispatched k s d)
  | quietOver {f : Form} {a : Appointment Task} {t : Schedule Task} {k : SlotKey} {s : Slot}
      (ht : f.schedule.Takes a t) (ha : a.task = .inquiryQuiet k) (hs : Table.get? f.slots k = some s) :
      Move f ((f.onSchedule t).quietOver k s)
  | asked {f : Form} {a : Appointment Task} {t : Schedule Task} {k : SlotKey} {s : Slot}
      {job : InquiryJob} {r : Reply Value} (ht : f.schedule.Takes a t)
      (ha : a.task = .inquiryStart k job) (hs : Table.get? f.slots k = some s)
      (hr : s.inquiry.isRemote → ∃ v : Service, v.routes = f.routes ∧ r = (v.send job.question.snapshot).1) :
      Move f ((f.onSchedule t).asked k s job r)
  | failed {f : Form} {a : Appointment Task} {t : Schedule Task} {k : SlotKey} {s : Slot}
      {job : InquiryJob} {e : Fault} (ht : f.schedule.Takes a t)
      (ha : a.task = .inquiryStart k job) (hs : Table.get? f.slots k = some s) :
      Move f ((f.onSchedule t).jobEnded k s job (.error e))
  | replied {f : Form} {a : Appointment Task} {t : Schedule Task} {k : SlotKey} {s : Slot}
      {job : InquiryJob} {r : Outcome Value} (ht : f.schedule.Takes a t)
      (ha : a.task = .inquiryReply k job r) (hs : Table.get? f.slots k = some s) :
      Move f ((f.onSchedule t).jobEnded k s job r)
  | lapsed {f : Form} {a : Appointment Task} {t : Schedule Task} {k : SlotKey}
      (ht : f.schedule.Takes a t) (ha : a.task.slot? = some k) (hs : Table.get? f.slots k = none) :
      Move f (f.onSchedule t)

/-- A rule or an application is attached, once its validators have been compiled. -/
inductive Form.Attaches (f : Form) : Rulebook → Prop
  | validator {b : Bound Validator} (h : f.compiled.Has b.rule) :
      Attaches f { f.rulebook with validators := f.rulebook.validators ++ [b] }
  | logic (b : Bound LogicRule) : Attaches f { f.rulebook with logic := f.rulebook.logic ++ [b] }
  | application {path : String} {a : SchemaApplication}
      (h : ∀ v ∈ f.rulebook.validatorsWithin a, f.compiled.Has v) :
      Attaches f { f.rulebook with applications := f.rulebook.applications ++ [(path, a)] }

/-- Steps of operations, other than that a schema is registered. -/
inductive Turn : Form → Form → Prop
  | move {f g : Form} (h : Move f g) : Turn f g
  | wrote {f : Form} (v : Value) : Turn f { f with value := v, version := f.version + 1 }
  | adjusted {f : Form} (derivations : List Derivation) (external : Value) (subscribers : List Subscriber)
      (hasLoop : Bool) : Turn f { f with derivations, external, subscribers, hasLoop }
  | attached {f : Form} {b : Rulebook} (h : f.Attaches b) : Turn f { f with rulebook := b }
  | streamed {f : Form} (s : Stream) (h : s.lane.timer = none) : Turn f { f with streams := f.streams ++ [s] }

end FormRules
